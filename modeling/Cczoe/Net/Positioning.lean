import Cczoe.Net.CursorLaws

/-!
# Positioning, reading and overwriting from a placed cursor

`Placed` is the shape every cursor operation of `bytearray.cpp` relies on: equal blocks that the
capacity counts, the position inside the text, and `m_curr` at the block of the position, null
exactly behind the last block. It is kept by a read of any length (`read_placed`) and by a write
that starts in front of the last byte (`write_placed`), across any number of blocks.

`setPosition` does not keep it. It walks from the old `m_curr` by the absolute position, so it
arrives at the right block only when the old cursor is in the first block, and it has no way to
leave the cursor behind the last block. `setPosition_movesTo_iff` is the exact condition.
-/

set_option autoImplicit false
set_option relaxedAutoImplicit false

namespace Cczoe.Net

open Foundations.BlockStorage

namespace ByteArray

namespace Placed

variable {b : ByteArray}

theorem root_ne (hb : Placed b) (hcapacity : 0 < b.capacity) : b.root ≠ [] := by
  intro hnil
  have hzero : b.capacity = 0 := by
    rw [hb.capacity_eq, hnil, List.length_nil, Nat.mul_zero]
  omega

theorem wellFormed (hb : Placed b) (hcapacity : 0 < b.capacity) : WellFormed b :=
  ⟨hb, hb.root_ne hcapacity⟩

theorem length_text (hb : Placed b) : b.text.length = b.capacity := by
  rw [text_eq_bytesOf, length_bytesOf hb.block_size, hb.capacity_eq]

/-- Assumes: something is readable. The position lies in front of the end of the blocks. -/
theorem position_lt (hb : Placed b) (hreadable : 0 < b.getReadableSize) :
    b.position < b.capacity := by
  have hsize := hb.size_le
  rw [getReadableSize] at hreadable
  omega

end Placed

/-! ### `setPosition` -/

/-- Assumes: blocks of one size. The walk of `setPosition` goes on by the number of whole blocks in
the position, and meets the null pointer when there are not that many. -/
theorem setPositionLoop_eq {baseSize : ℕ} (hbase : 0 < baseSize) (blocks : List Node) :
    ∀ (curr pos : ℕ), (∀ node ∈ blocks, node.size = baseSize) →
      setPositionLoop blocks curr pos =
        if pos / baseSize < blocks.length then .ok (curr + pos / baseSize)
        else .error .nullBlock := by
  induction blocks with
  | nil =>
    intro curr pos _
    rfl
  | cons node rest ih =>
    intro curr pos hsize
    have hnode : node.size = baseSize := hsize node List.mem_cons_self
    have hrest : ∀ other ∈ rest, other.size = baseSize := fun other hother ↦
      hsize other (List.mem_cons_of_mem _ hother)
    rw [setPositionLoop, hnode]
    by_cases hmore : baseSize ≤ pos
    · have hdiv : pos / baseSize = (pos - baseSize) / baseSize + 1 :=
        Nat.div_eq_sub_div hbase hmore
      rw [if_pos hmore, ih (curr + 1) (pos - baseSize) hrest, hdiv, List.length_cons]
      simp only [Nat.add_lt_add_iff_right, Nat.add_assoc, Nat.add_comm 1]
    · have hdiv : pos / baseSize = 0 := Nat.div_eq_of_lt (by omega)
      rw [if_neg hmore, hdiv, if_pos (by simp), Nat.add_zero]

/-- What `setPosition(pos)` is for: it throws and changes nothing beyond the text, and otherwise
returns with the position at `pos`, the cursor at its block and everything else as before. -/
def MovesTo (b : ByteArray) (pos : ℕ) : Prop :=
  (b.size < pos → setPosition pos b = .error (.outOfRange "setPosition out of range") b) ∧
    (pos ≤ b.size → ∃ after, setPosition pos b = .ok () after ∧ Placed after ∧
      after.position = pos ∧ after.root = b.root ∧ after.size = b.size ∧
      after.capacity = b.capacity)

/-- Assumes: a placed array with the cursor at a block. `setPosition` inside the text moves the
cursor by the whole blocks of the position, counted from the old cursor. -/
theorem setPosition_eq {b : ByteArray} (hb : Placed b) {pos curr : ℕ} (hpos : pos ≤ b.size)
    (hcurr : b.curr = some curr) :
    setPosition pos b =
      if pos / b.baseSize < b.root.length - curr then
        .ok () { b with position := pos, curr := some (curr + pos / b.baseSize) }
      else .error .nullBlock { b with position := pos } := by
  have hsizes : ∀ node ∈ b.root.drop curr, node.size = b.baseSize := fun node hnode ↦
    hb.block_size node (List.mem_of_mem_drop hnode)
  rw [setPosition, if_neg (by omega)]
  simp only [hcurr, setPositionLoop_eq hb.baseSize_pos _ curr pos hsizes, List.length_drop]
  by_cases hinside : pos / b.baseSize < b.root.length - curr
  · simp only [if_pos hinside]
  · simp only [if_neg hinside]

/-- Assumes: a placed array, in its first block, and a position in front of the end of the blocks.
`setPosition` then arrives at the block of the position. -/
theorem setPosition_of_first {b : ByteArray} (hb : Placed b) {pos : ℕ} (hpos : pos ≤ b.size)
    (hfirst : b.position < b.baseSize) (hinside : pos < b.capacity) :
    setPosition pos b = .ok () { b with position := pos, curr := some (pos / b.baseSize) } := by
  have hwell : WellFormed b := hb.wellFormed (by omega)
  have hcapacity : b.baseSize ≤ b.capacity := hwell.shaped.baseSize_le
  have hcurr : b.curr = some 0 := by
    rw [hb.curr_eq, if_neg (by omega), Nat.div_eq_of_lt hfirst]
  have hblock : pos / b.baseSize < b.root.length :=
    Nat.div_lt_of_lt_mul (hb.capacity_eq ▸ hinside)
  rw [setPosition_eq hb hpos hcurr, if_pos (by omega), Nat.zero_add]

/-- Assumes: a placed array. `setPosition` does what it is for exactly when it throws, or starts
from the first block and stays in front of the end of the blocks. -/
theorem setPosition_movesTo_iff {b : ByteArray} (hb : Placed b) (pos : ℕ) :
    MovesTo b pos ↔ b.size < pos ∨ (b.position < b.baseSize ∧ pos < b.capacity) := by
  constructor
  · rintro ⟨-, hmoves⟩
    by_cases hpos : b.size < pos
    · exact Or.inl hpos
    obtain ⟨after, hok, hafter, hposition, hroot, -, hcapacity⟩ := hmoves (by omega)
    refine Or.inr ?_
    cases hcurr : b.curr with
    | none =>
      rw [setPosition, if_neg hpos] at hok
      simp only [hcurr] at hok
      exact absurd hok (by simp)
    | some curr =>
      rw [setPosition_eq hb (by omega) hcurr] at hok
      have hinside : pos / b.baseSize < b.root.length - curr := by
        by_contra hbeyond
        rw [if_neg hbeyond] at hok
        exact absurd hok (by simp)
      rw [if_pos hinside] at hok
      obtain ⟨-, rfl⟩ : () = () ∧ { b with
          position := pos, curr := some (curr + pos / b.baseSize) } = after := by
        simpa using hok
      -- the cursor arrived at is the block of `pos` only if the walk started at block zero
      have hseat := hafter.curr_eq
      dsimp only at hseat
      have hend : pos ≠ b.capacity := by
        intro hend
        rw [if_pos hend] at hseat
        exact absurd hseat (by simp)
      rw [if_neg hend, Option.some.injEq] at hseat
      have hold := hb.curr_eq
      rw [hcurr] at hold
      have hnotend : b.position ≠ b.capacity := by
        intro hfull
        rw [if_pos hfull] at hold
        exact absurd hold (by simp)
      rw [if_neg hnotend, Option.some.injEq] at hold
      have hzero : b.position / b.baseSize = 0 := by omega
      have hsize := hb.size_le
      refine ⟨?_, by omega⟩
      rcases Nat.div_eq_zero_iff.mp hzero with hbase | hlt
      · have hpositive := hb.baseSize_pos
        omega
      · exact hlt
  · rintro (hthrow | ⟨hfirst, hinside⟩)
    · refine ⟨fun _ ↦ by rw [setPosition, if_pos hthrow], fun hpos ↦ ?_⟩
      omega
    · refine ⟨fun hthrow ↦ by rw [setPosition, if_pos hthrow], fun hpos ↦ ?_⟩
      refine ⟨_, setPosition_of_first hb hpos hfirst hinside, ?_, rfl, rfl, rfl, rfl⟩
      exact ⟨⟨hb.baseSize_pos, hb.capacity_eq⟩, hb.block_size, hpos, hb.size_le,
        (if_neg (Nat.ne_of_lt hinside)).symm⟩

/-- Two blocks of two bytes, three of them text, with the position at the third. -/
def inSecondBlock : ByteArray where
  baseSize := 2
  position := 3
  capacity := 4
  size := 3
  endian := .little
  root := [⟨[10, 11]⟩, ⟨[12, 0]⟩]
  curr := some 1

theorem placed_inSecondBlock : Placed inSecondBlock :=
  ⟨⟨by decide, by decide⟩, by decide, by decide, by decide, by decide⟩

/-- Going back to the start from the second block leaves the cursor in the second block. -/
theorem setPosition_back_not_movesTo : Placed inSecondBlock ∧ ¬ MovesTo inSecondBlock 0 := by
  refine ⟨placed_inSecondBlock, fun hmoves ↦ ?_⟩
  obtain ⟨after, hok, hafter, -⟩ := hmoves.2 (by decide)
  have hstays : setPosition 0 inSecondBlock = .ok () { inSecondBlock with position := 0 } := rfl
  rw [hstays] at hok
  obtain ⟨-, rfl⟩ : () = () ∧ { inSecondBlock with position := 0 } = after := by simpa using hok
  exact absurd hafter.curr_eq (by decide)

/-- The same array with the position in its first block. -/
def inFirstBlock : ByteArray := { inSecondBlock with position := 1, curr := some 0 }

theorem placed_inFirstBlock : Placed inFirstBlock :=
  ⟨⟨by decide, by decide⟩, by decide, by decide, by decide, by decide⟩

theorem setPosition_movesTo_inFirstBlock : MovesTo inFirstBlock 3 :=
  (setPosition_movesTo_iff placed_inFirstBlock 3).mpr (Or.inr ⟨by decide, by decide⟩)

/-! ### `read` -/

/-- Assumes: a placed array and at least one byte asked for. `read` throws and changes nothing when
the text is too short; otherwise it returns the bytes of the blocks from the position on and only
the position and the cursor move. -/
theorem read_placed {b : ByteArray} (hb : Placed b) {n : ℕ} (hn : 1 ≤ n) :
    (b.getReadableSize < n → read n b = .error (.outOfRange "read size out of range") b) ∧
      (n ≤ b.getReadableSize → ∃ bytes after, read n b = .ok bytes after ∧
        bytes.length = n ∧ (∀ i < n, bytes[i]? = b.text[b.position + i]?) ∧
        after.root = b.root ∧ after.size = b.size ∧ after.capacity = b.capacity ∧
        after.position = b.position + n ∧ Placed after) := by
  refine ⟨fun hshort ↦ by rw [read, if_pos hshort], fun henough ↦ ?_⟩
  have hposition : b.position < b.capacity := hb.position_lt (by omega)
  have hsize : b.position + n ≤ b.size := by
    rw [getReadableSize] at henough
    omega
  have hwell : WellFormed b := hb.wellFormed (by omega)
  refine ⟨_, _, read_eq hwell hposition hsize, ?_, ?_, rfl, rfl, rfl, rfl,
    (hwell.move hsize).toPlaced⟩
  · have hcapacity := hb.size_le
    rw [List.length_take, List.length_drop, hb.length_text]
    omega
  · intro i hi
    rw [List.getElem?_take_of_lt hi, List.getElem?_drop]

theorem read_placed_inFirstBlock :
    ∃ bytes after, read 2 inFirstBlock = .ok bytes after ∧ bytes.length = 2 ∧ Placed after := by
  obtain ⟨bytes, after, hread, hlength, -, -, -, -, -, hafter⟩ :=
    (read_placed placed_inFirstBlock (n := 2) (by decide)).2 (by decide)
  exact ⟨bytes, after, hread, hlength, hafter⟩

/-! ### `write` -/

/-- Assumes: a placed array with the position in front of the end of the blocks. `write` puts the
bytes at the position, keeps every other byte of the text, and leaves a placed array. -/
theorem write_placed (junk : ℕ → ℕ → UInt8) {b : ByteArray} (hb : Placed b)
    (hposition : b.position < b.capacity) (chunk : List UInt8) :
    ∃ after, write junk chunk b = .ok () after ∧ Placed after ∧
      after.position = b.position + chunk.length ∧ after.size = max b.size after.position ∧
      (∀ i < chunk.length, after.text[b.position + i]? = chunk[i]?) ∧
      ∀ i < b.size, (i < b.position ∨ b.position + chunk.length ≤ i) →
        after.text[i]? = b.text[i]? := by
  by_cases hempty : chunk = []
  · subst hempty
    refine ⟨b, rfl, hb, rfl, (Nat.max_eq_left hb.position_le).symm, ?_, fun _ _ _ ↦ rfl⟩
    intro i hi
    exact absurd hi (Nat.not_lt_zero i)
  have hshaped : Shaped b := (hb.wellFormed (by omega)).shaped
  have hcurr : (if b.getCapacity = 0 ∧ 0 < chunk.length then some (b.root.length - 1) else b.curr) =
      some (b.position / b.baseSize) := by
    have hroom : b.getCapacity ≠ 0 := by
      rw [getCapacity]
      omega
    rw [if_neg fun hnone ↦ hroom hnone.1, hb.curr_eq, if_neg (by omega)]
  have hfits := le_growth chunk.length hshaped.toCounted
  obtain ⟨after, hwrite, hwritten⟩ := write_eq junk hshaped hempty hcurr rfl hfits
  have hcapacity : after.capacity = b.baseSize * (b.root.length + growth b chunk.length) := by
    rw [hwritten.shaped.capacity_eq, hwritten.baseSize_eq, hwritten.length_eq]
  have hgrown : (bytesOf (grown junk b chunk.length)).length =
      b.baseSize * (b.root.length + growth b chunk.length) := by
    rw [length_bytesOf (size_of_mem_grown junk hshaped chunk.length), length_grown]
  refine ⟨after, hwrite, ?_, hwritten.position_eq, ?_, ?_, ?_⟩
  · refine ⟨hwritten.shaped.toMeasured, hwritten.shaped.block_size, ?_, ?_, ?_⟩
    · rw [hwritten.size_eq, hwritten.position_eq]
      exact Nat.le_max_right _ _
    · have hsize := hb.size_le
      have hold := hb.capacity_eq
      rw [hwritten.size_eq, hcapacity, Nat.mul_add]
      rw [Nat.mul_add] at hfits
      omega
    · rw [hwritten.curr_eq, hwritten.position_eq, hwritten.shaped.capacity_eq,
        hwritten.baseSize_eq]
      rfl
  · rw [hwritten.size_eq, hwritten.position_eq]
  · intro i hi
    rw [hwritten.text_eq, getElem?_overwrite_add (by omega) hi]
  · intro i hi hother
    rw [hwritten.text_eq, getElem?_overwrite_of_outside (by omega) hother, grown, bytesOf_append,
      List.getElem?_append_left (by
        have hlength := hb.length_text
        have hsize := hb.size_le
        rw [text_eq_bytesOf] at hlength
        omega), text_eq_bytesOf]

theorem write_placed_inSecondBlock :
    ∃ after, write (fun _ _ ↦ 0) [1, 2, 3] inSecondBlock = .ok () after ∧ Placed after ∧
      after.position = 6 ∧ after.size = max 3 after.position := by
  obtain ⟨after, hwrite, hafter, hposition, hsize, -⟩ :=
    write_placed (fun _ _ ↦ 0) placed_inSecondBlock (by decide) [1, 2, 3]
  exact ⟨after, hwrite, hafter, hposition, hsize⟩

end ByteArray

end Cczoe.Net
