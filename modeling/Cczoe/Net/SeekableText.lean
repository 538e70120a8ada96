import Mathlib.Order.Lattice
import Cczoe.Foundations.GuardedRuns
import Cczoe.Net.GatherReads
import Cczoe.Net.SequentialWrites

/-!
# The byte array as a seekable text

What a `ByteArray` is for: a text with a position in it, where writing overwrites from the position
on and extends the text, reading takes what stands behind the position, and both move the position.
`SeekableText` is that, without blocks and without a cursor. `operate` are the operations of
`bytearray.cpp` on the blocks; an exception is an answer, after which the array can be used on.

`byteArray_refines_text` says that the two cannot be told apart in any run whose steps the cursor
serves (`Served`): a write meets free space, a position is set from the first block, and nothing is
read of an array without a block at the cursor. Outside of these the source goes wrong.
-/

set_option autoImplicit false
set_option relaxedAutoImplicit false

namespace Cczoe.Net

open Foundations Foundations.BlockStorage

/-! ### Texts -/

/-- A text with a position in it. -/
structure SeekableText (α : Type) where
  elements : List α
  position : ℕ
  position_le : position ≤ elements.length

namespace SeekableText

variable {α : Type}

def empty : SeekableText α := ⟨[], 0, le_rfl⟩

/-- The elements behind the position. -/
def rest (t : SeekableText α) : List α := t.elements.drop t.position

theorem write_position_le (t : SeekableText α) (data : List α) :
    t.position + data.length ≤ (overwrite t.elements t.position data).length := by
  have hposition := t.position_le
  simp only [overwrite, List.length_append, List.length_take, List.length_drop]
  omega

/-- Overwrites from the position on, and goes behind what is written. -/
def write (t : SeekableText α) (data : List α) : SeekableText α where
  elements := overwrite t.elements t.position data
  position := t.position + data.length
  position_le := t.write_position_le data

@[simp] theorem write_elements (t : SeekableText α) (data : List α) :
    (t.write data).elements = overwrite t.elements t.position data := rfl

@[simp] theorem write_position (t : SeekableText α) (data : List α) :
    (t.write data).position = t.position + data.length := rfl

/-- Goes to a position in the text. -/
def seek (t : SeekableText α) (position : ℕ) (hposition : position ≤ t.elements.length) :
    SeekableText α := ⟨t.elements, position, hposition⟩

end SeekableText

/-! ### Operations and answers -/

/-- An operation that a caller asks for. `gather` collects the slices of `addReadBuffers`. -/
inductive TextOperation
  | write (data : List UInt8)
  | read (size : ℕ)
  | gather (size : ℕ)
  | toString
  | setPosition (position : ℕ)
  | clear
  deriving DecidableEq, Repr

/-- What a caller sees: bytes, or the text of an exception. -/
inductive TextAnswer
  | bytes (bytes : List UInt8)
  | thrown (what : String)
  deriving DecidableEq, Repr

/-- The operations on a text. -/
def SeekableText.operate (operation : TextOperation) (t : SeekableText UInt8) :
    TextAnswer × SeekableText UInt8 :=
  match operation with
  | .write data => (.bytes [], t.write data)
  | .read size =>
    if hsize : t.position + size ≤ t.elements.length then
      (.bytes (t.rest.take size), t.seek (t.position + size) hsize)
    else (.thrown "read size out of range", t)
  | .gather size => (.bytes (t.rest.take size), t)
  | .toString => (.bytes t.rest, t)
  | .setPosition position =>
    if hposition : position ≤ t.elements.length then (.bytes [], t.seek position hposition)
    else (.thrown "setPosition out of range", t)
  | .clear => (.bytes [], .empty)

/-- An operation on a text as a step, which never fails. -/
def SeekableText.step (operation : TextOperation) (t : SeekableText UInt8) :
    Except Fault (TextAnswer × SeekableText UInt8) := .ok (t.operate operation)

namespace ByteArray

variable (junk : ℕ → ℕ → UInt8)

/-- An exception is an answer; any other fault is undefined behaviour. -/
def answer {α : Type} (shown : α → List UInt8) :
    EStateM.Result Fault ByteArray α → Except Fault (TextAnswer × ByteArray)
  | .ok value after => .ok (.bytes (shown value), after)
  | .error (.outOfRange what) after => .ok (.thrown what, after)
  | .error fault _ => .error fault

/-- The result of a const operation, which leaves the array as it is. -/
def constResult {α : Type} (b : ByteArray) : Except Fault α → EStateM.Result Fault ByteArray α
  | .ok value => .ok value b
  | .error fault => .error fault b

/-- The operations on the blocks. -/
def operate (operation : TextOperation) (b : ByteArray) : Except Fault (TextAnswer × ByteArray) :=
  match operation with
  | .write data => answer (fun _ ↦ []) (write junk data b)
  | .read size => answer id (read size b)
  | .gather size =>
    answer (fun gathered ↦ (gathered.2.map b.bytesAt).flatten)
      (b.constResult (addReadBuffers size b))
  | .toString => answer id (b.constResult b.toString)
  | .setPosition position => answer (fun _ ↦ []) (setPosition position b)
  | .clear => .ok (.bytes [], b.clear)

/-- The cursor serves an operation: there is free space for bytes to be written, a block where
nothing is read, and the walk to a position starts in the first block and ends at a block. -/
def Served (b : ByteArray) : TextOperation → Prop
  | .write data => data ≠ [] → b.position < b.capacity
  | .read size => size = 0 → b.position < b.capacity
  | .setPosition position => position ≤ b.size → b.position < b.baseSize ∧ position < b.capacity
  | .gather _ | .toString | .clear => True

/-- An array in the shape that the source intends, with this text and this position. -/
structure Represents (b : ByteArray) (t : SeekableText UInt8) : Prop where
  wellFormed : WellFormed b
  elements_eq : t.elements = b.text.take b.size
  position_eq : t.position = b.position

variable {b : ByteArray} {t : SeekableText UInt8}

namespace Represents

theorem length_eq (ht : Represents b t) : t.elements.length = b.size := by
  rw [ht.elements_eq, List.length_take, ht.wellFormed.shaped.length_text]
  exact Nat.min_eq_left ht.wellFormed.size_le

theorem rest_eq (ht : Represents b t) :
    t.rest = (b.text.drop b.position).take b.getReadableSize := by
  rw [SeekableText.rest, ht.elements_eq, ht.position_eq, List.drop_take, getReadableSize]

/-- The position goes to another place of the text, and the cursor to its block. -/
theorem seek (ht : Represents b t) {position : ℕ} (hposition : position ≤ t.elements.length) :
    Represents { b with position := position, curr := seat b.baseSize b.root.length position }
      (t.seek position hposition) where
  wellFormed := ht.wellFormed.move (ht.length_eq ▸ hposition)
  elements_eq := ht.elements_eq
  position_eq := rfl

theorem write (ht : Represents b t) {data : List UInt8}
    (hserved : data ≠ [] → b.position < b.capacity) :
    ∃ after, ByteArray.write junk data b = .ok () after ∧ Represents after (t.write data) := by
  by_cases hdata : data = []
  · subst hdata
    refine ⟨b, write_nil junk b, ht.wellFormed, ?_, ht.position_eq⟩
    rw [SeekableText.write_elements, overwrite_nil]
    exact ht.elements_eq
  · have hroom := hserved hdata
    have hwell := ht.wellFormed
    have hshaped := hwell.shaped
    have hcurr : (if b.getCapacity = 0 ∧ 0 < data.length then some (b.root.length - 1)
        else b.curr) = some (b.position / b.baseSize) := by
      have hfree : b.getCapacity ≠ 0 := by
        rw [getCapacity]
        omega
      rw [if_neg fun hfull ↦ hfree hfull.1, hwell.curr_eq, if_neg (by omega)]
    have hfits := le_growth data.length hshaped.toCounted
    obtain ⟨after, hwrite, hwritten⟩ := write_eq junk hshaped hdata hcurr rfl hfits
    refine ⟨after, hwrite, ⟨⟨hwritten.shaped.toMeasured, hwritten.shaped.block_size, ?_, ?_, ?_⟩,
      hwritten.shaped.root_ne⟩, ?_, ?_⟩
    · rw [hwritten.position_eq, hwritten.size_eq]
      exact Nat.le_max_right _ _
    · have hsize := hwell.size_le
      have hold := hwell.capacity_eq
      rw [hwritten.size_eq, hwritten.shaped.capacity_eq, hwritten.baseSize_eq, hwritten.length_eq,
        Nat.mul_add]
      rw [Nat.mul_add] at hfits
      omega
    · rw [hwritten.curr_eq, hwritten.position_eq, hwritten.shaped.capacity_eq,
        hwritten.baseSize_eq]
      rfl
    · -- the fresh blocks stand behind the old text
      have hlength := hshaped.length_text
      have hinside : b.size ≤ (bytesOf (grown junk b data.length)).length := by
        rw [grown, bytesOf_append, List.length_append, ← text_eq_bytesOf, hlength]
        exact hwell.size_le.trans (Nat.le_add_right _ _)
      have hfront : (bytesOf (grown junk b data.length)).take b.size = b.text.take b.size := by
        rw [grown, bytesOf_append, ← text_eq_bytesOf,
          List.take_append_of_le_length (hlength ▸ hwell.size_le)]
      rw [SeekableText.write_elements, hwritten.text_eq, hwritten.size_eq,
        take_overwrite_max data hwell.position_le hinside, hfront, ht.elements_eq, ht.position_eq]
    · rw [SeekableText.write_position, hwritten.position_eq, ht.position_eq]

theorem clear (ht : Represents b t) : Represents b.clear .empty where
  wellFormed := by
    have hshaped := ht.wellFormed.shaped
    have hone : (b.root.take 1).length = 1 := by
      rw [List.length_take]
      exact Nat.min_eq_left (List.length_pos_of_ne_nil hshaped.root_ne)
    refine ⟨⟨⟨hshaped.baseSize_pos, ?_⟩,
      fun node hnode ↦ hshaped.block_size node (List.mem_of_mem_take hnode), le_rfl,
      Nat.zero_le _, ?_⟩, List.ne_nil_of_length_pos (by rw [ByteArray.clear, hone]; decide)⟩
    · rw [ByteArray.clear, hone, Nat.mul_one]
    · simp only [ByteArray.clear, Nat.zero_div]
      rw [if_neg (Nat.ne_of_lt hshaped.baseSize_pos)]
  elements_eq := List.take_zero.symm
  position_eq := rfl

end Represents

/-- One operation on the blocks, and the same on the text. -/
theorem Represents.operate (ht : Represents b t) {operation : TextOperation}
    (hserved : b.Served operation) :
    ∃ after, b.operate junk operation = .ok ((t.operate operation).1, after) ∧
      Represents after (t.operate operation).2 := by
  have hwell := ht.wellFormed
  have hlength := ht.length_eq
  have hposition := ht.position_eq
  have hsize := hwell.size_le
  cases operation with
  | write data =>
    obtain ⟨after, hwrite, hafter⟩ := ht.write junk hserved
    refine ⟨after, ?_, hafter⟩
    rw [ByteArray.operate, hwrite]
    rfl
  | read size =>
    by_cases hinside : t.position + size ≤ t.elements.length
    · have henough : b.position + size ≤ b.size := by omega
      have hblock : b.position < b.capacity := by
        by_cases hzero : size = 0
        · exact hserved hzero
        · omega
      have hread := read_eq hwell hblock henough
      have hbytes : t.rest.take size = (b.text.drop b.position).take size := by
        rw [ht.rest_eq, List.take_take, Nat.min_eq_left (by rw [getReadableSize]; omega)]
      rw [← hposition] at hread hbytes
      rw [SeekableText.operate, dif_pos hinside, hbytes]
      refine ⟨_, ?_, ht.seek hinside⟩
      rw [ByteArray.operate, hread]
      rfl
    · have hshort : b.getReadableSize < size := by
        have hposition_le := hwell.position_le
        rw [getReadableSize]
        omega
      rw [SeekableText.operate, dif_neg hinside]
      refine ⟨b, ?_, ht⟩
      rw [ByteArray.operate, ByteArray.read, if_pos hshort]
      rfl
  | gather size =>
    obtain ⟨slices, hgather, -, hbytes⟩ := addReadBuffers_eq hwell.toPlaced size
    refine ⟨b, ?_, ht⟩
    rw [ByteArray.operate, hgather, SeekableText.operate, ht.rest_eq, List.take_take]
    exact congrArg (fun bytes ↦ Except.ok (TextAnswer.bytes bytes, b)) hbytes
  | toString =>
    refine ⟨b, ?_, ht⟩
    rw [ByteArray.operate, toString_eq hwell.toPlaced, SeekableText.operate, ht.rest_eq]
    rfl
  | setPosition position =>
    by_cases hinside : position ≤ t.elements.length
    · have hmoves : position ≤ b.size := by omega
      obtain ⟨hfirst, hblock⟩ := hserved hmoves
      have hseat : seat b.baseSize b.root.length position = some (position / b.baseSize) := by
        rw [seat, if_neg (by rw [← hwell.capacity_eq]; omega)]
      have hset := setPosition_of_first hwell.toPlaced hmoves hfirst hblock
      rw [← hseat] at hset
      rw [SeekableText.operate, dif_pos hinside]
      refine ⟨_, ?_, ht.seek hinside⟩
      rw [ByteArray.operate, hset]
      rfl
    · rw [SeekableText.operate, dif_neg hinside]
      refine ⟨b, ?_, ht⟩
      rw [ByteArray.operate, ByteArray.setPosition, if_pos (by omega)]
      rfl
  | clear => exact ⟨b.clear, rfl, ht.clear⟩

/-! ### Operations that the cursor does not serve -/

theorem WellFormed.curr_eq_seat (hb : WellFormed b) :
    b.curr = seat b.baseSize b.root.length b.position := by
  rw [hb.curr_eq, seat, hb.capacity_eq]

/-- The cursor tells two positions apart that are a block from each other. -/
theorem seat_add_ne {baseSize : ℕ} (hbase : 0 < baseSize) (count offset : ℕ) :
    seat baseSize count offset ≠ seat baseSize count (offset + baseSize) := by
  unfold seat
  by_cases hfirst : offset = baseSize * count
  · rw [if_pos hfirst, if_neg (by omega)]
    exact nofun
  · rw [if_neg hfirst]
    by_cases hsecond : offset + baseSize = baseSize * count
    · rw [if_pos hsecond]
      exact nofun
    · rw [if_neg hsecond, Nat.add_div_right _ hbase]
      simp

/-- Without free space the bytes go to the last old block, and the cursor stays behind. -/
theorem WellFormed.not_write_of_full (hb : WellFormed b) {data : List UInt8} (hdata : data ≠ [])
    (hfull : b.position = b.capacity) {after : ByteArray}
    (hwrite : ByteArray.write junk data b = .ok () after) : ¬ WellFormed after := by
  have hshaped := hb.shaped
  have hbase := hb.baseSize_pos
  have hcount := List.length_pos_of_ne_nil hb.root_ne
  have hlast : b.baseSize * (b.root.length - 1) + b.baseSize = b.position := by
    rw [hfull, hb.capacity_eq, ← Nat.mul_succ, Nat.succ_eq_add_one, Nat.sub_add_cancel hcount]
  have hfree : b.getCapacity = 0 ∧ 0 < data.length := by
    refine ⟨?_, List.length_pos_of_ne_nil hdata⟩
    rw [getCapacity, hfull, Nat.sub_self]
  have hfits := le_growth data.length hshaped.toCounted
  have hlaid : ∃ laid, ByteArray.write junk data b = .ok () laid ∧
      Written junk b data (b.baseSize * (b.root.length - 1)) laid :=
    write_eq junk hshaped hdata (by rw [if_pos hfree, Nat.mul_div_cancel_left _ hbase])
      (by rw [← hlast, Nat.add_mod_right]) (by omega)
  obtain ⟨laid, hlaid, hwritten⟩ := hlaid
  rw [hwrite] at hlaid
  cases hlaid
  intro hafter
  have hseat := hafter.curr_eq_seat
  rw [hwritten.curr_eq, hwritten.baseSize_eq, hwritten.position_eq] at hseat
  refine seat_add_ne hbase after.root.length
    (b.baseSize * (b.root.length - 1) + data.length) (hseat.trans (congrArg _ ?_))
  omega

/-- A walk that does not start in the first block, or that would end behind the blocks, does not
arrive at the block of the position. -/
theorem WellFormed.not_setPosition (hb : WellFormed b) {position : ℕ}
    (hposition : position ≤ b.size)
    (hwrong : ¬ (b.position < b.baseSize ∧ position < b.capacity)) {after : ByteArray}
    (hset : ByteArray.setPosition position b = .ok () after) : ¬ WellFormed after := by
  intro hafter
  have hcurr := hb.curr_eq
  by_cases hend : b.position = b.capacity
  · rw [if_pos hend] at hcurr
    simp only [ByteArray.setPosition, if_neg (not_lt.mpr hposition), hcurr] at hset
    cases hset
  · rw [if_neg hend] at hcurr
    rw [setPosition_eq hb.toPlaced hposition hcurr] at hset
    split_ifs at hset
    cases hset
    have hseat := hafter.curr_eq
    simp only at hseat
    have hbefore : position ≠ b.capacity := by
      intro hat
      rw [if_pos hat] at hseat
      cases hseat
    rw [if_neg hbefore, Option.some.injEq] at hseat
    have hzero : b.position / b.baseSize = 0 := by omega
    have hbase := hb.baseSize_pos
    have hsize := hb.size_le
    refine hwrong ⟨?_, by omega⟩
    rcases Nat.div_eq_zero_iff.mp hzero with hnone | hlt
    · omega
    · exact hlt

/-- An operation is done right when it gives the answer of the text and leaves an array that
represents the text afterwards. -/
def DoneRight (b : ByteArray) (t : SeekableText UInt8) (operation : TextOperation) : Prop :=
  ∃ after, b.operate junk operation = .ok ((t.operate operation).1, after) ∧
    Represents after (t.operate operation).2

theorem Represents.doneRight_iff (ht : Represents b t) (operation : TextOperation) :
    b.DoneRight junk t operation ↔ b.Served operation := by
  refine ⟨?_, ht.operate junk⟩
  have hwell := ht.wellFormed
  have hposition := hwell.position_le
  have hsize := hwell.size_le
  rintro ⟨after, hoperate, hafter⟩
  cases operation with
  | write data =>
    intro hdata
    by_contra hfull
    rw [ByteArray.operate] at hoperate
    cases hwrite : ByteArray.write junk data b with
    | ok value written =>
      rw [hwrite] at hoperate
      cases hoperate
      exact hwell.not_write_of_full junk hdata (by omega) hwrite hafter.wellFormed
    | error fault written =>
      rw [hwrite] at hoperate
      cases fault <;> cases hoperate
  | read size =>
    rintro rfl
    by_contra hend
    have hcurr : b.curr = none := by rw [hwell.curr_eq, if_pos (by omega)]
    rw [ByteArray.operate, ByteArray.read, if_neg (Nat.not_lt_zero _)] at hoperate
    simp only [readFrom, hcurr] at hoperate
    cases hoperate
  | setPosition position =>
    intro hmoves
    by_contra hwrong
    rw [ByteArray.operate, SeekableText.operate, dif_pos (ht.length_eq ▸ hmoves)] at hoperate
    cases hset : ByteArray.setPosition position b with
    | ok value moved =>
      rw [hset] at hoperate
      cases hoperate
      exact hwell.not_setPosition hmoves hwrong hset hafter.wellFormed
    | error fault moved =>
      rw [hset] at hoperate
      cases fault <;> cases hoperate
  | _ => trivial

/-! ### Runs -/

theorem represents_ofBaseSize {baseSize : ℕ} (hbase : 1 ≤ baseSize) :
    Represents (ofBaseSize junk baseSize) .empty where
  wellFormed := by
    refine ⟨⟨⟨hbase, (Nat.mul_one _).symm⟩, ?_, le_rfl, Nat.zero_le _, ?_⟩, List.cons_ne_nil _ _⟩
    · intro node hnode
      rw [List.mem_singleton.mp hnode]
      simp only [Node.size, Node.alloc, List.length_map, List.length_range, ofBaseSize]
    · simp only [ofBaseSize, Nat.zero_div]
      rw [if_neg (Nat.ne_of_lt hbase)]
  elements_eq := List.take_zero.symm
  position_eq := rfl

/-- Assumes: blocks of at least one byte, and a run whose steps the cursor serves. A text gives the
same answers to the same operations, the array represents it at the end, and the next operation is
done right exactly when the cursor serves it. -/
theorem byteArray_refines_text {baseSize : ℕ} (hbase : 1 ≤ baseSize)
    {trace : List (TextOperation × TextAnswer)} {final : ByteArray}
    (hrun : Run (operate junk) Served (ofBaseSize junk baseSize) trace final) :
    ∃ t, Run SeekableText.step (fun _ _ ↦ True) .empty trace t ∧ Represents final t ∧
      ∀ operation, final.DoneRight junk t operation ↔ final.Served operation := by
  have hsimulated : ∃ t, Run SeekableText.step (fun _ _ ↦ True) .empty trace t ∧
      Represents final t := by
    refine hrun.simulated (represents_ofBaseSize junk hbase) ?_
    intro now t operation answer next ht hserved hstep
    obtain ⟨after, hoperate, hafter⟩ := ht.operate junk hserved
    rw [hstep] at hoperate
    cases hoperate
    exact ⟨_, rfl, hafter⟩
  obtain ⟨t, htext, hfinal⟩ := hsimulated
  exact ⟨t, htext, hfinal, hfinal.doneRight_iff junk⟩

/-- Five bytes over two blocks, four of them written over others. -/
theorem byteArray_refines_text_read_again : ∃ final t,
    Run SeekableText.step (fun _ _ ↦ True) .empty
      [(.write [1, 2, 3], .bytes []), (.setPosition 1, .bytes []), (.write [4, 5, 6, 7], .bytes []),
        (.read 1, .thrown "read size out of range")] t ∧
      Represents final t ∧ ∀ operation, final.DoneRight (fun _ _ ↦ 0) t operation ↔
        final.Served operation := by
  have hrun : Run (operate fun _ _ ↦ 0) Served (ofBaseSize (fun _ _ ↦ 0) 4)
      [(.write [1, 2, 3], .bytes []), (.setPosition 1, .bytes []), (.write [4, 5, 6, 7], .bytes []),
        (.read 1, .thrown "read size out of range")] _ :=
    (((Run.nil.snoc (fun _ ↦ by decide) rfl).snoc (fun _ ↦ by decide) rfl).snoc
      (fun _ ↦ by decide) rfl).snoc (fun hzero ↦ absurd hzero (by decide)) rfl
  obtain ⟨t, htext, hfinal, hright⟩ := byteArray_refines_text _ (by decide) hrun
  exact ⟨_, t, htext, hfinal, hright⟩

end ByteArray

end Cczoe.Net
