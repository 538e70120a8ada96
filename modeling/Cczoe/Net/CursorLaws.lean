import Cczoe.Net.BlockBuffer

/-!
# Laws of the block cursor

The loops of `write` and `read` are specified on blocks of one size, by the offset of the cursor in
the concatenation of the blocks. `writeLoop_eq` and `readLoop_eq` say that a loop started inside its
first block overwrites, or copies out, the bytes from that offset on, and leaves the cursor at the
block of the offset behind them, `seat`. `addCapacity_eq` is the growth law: the old blocks stay in
front and enough new ones follow.

`Placed` is the shape the source intends: equal blocks, a capacity counting them, a position inside
the text and the cursor at the block of the position. `WellFormed` adds that there is a block.
-/

set_option autoImplicit false
set_option relaxedAutoImplicit false

namespace Cczoe.Net

open Foundations.BlockStorage

namespace ByteArray

/-- The block that holds an offset of a list of `count` blocks, none behind the last one. -/
def seat (baseSize count offset : ℕ) : Option ℕ :=
  if offset = baseSize * count then none else some (offset / baseSize)

/-- The bytes of the blocks of a list. -/
def bytesOf (blocks : List Node) : List UInt8 := (blocks.map Node.ptr).flatten

theorem bytesOf_cons (node : Node) (rest : List Node) :
    bytesOf (node :: rest) = node.ptr ++ bytesOf rest := rfl

theorem bytesOf_append (first second : List Node) :
    bytesOf (first ++ second) = bytesOf first ++ bytesOf second := by
  simp only [bytesOf, List.map_append, List.flatten_append]

section Blocks

variable {baseSize : ℕ} {blocks : List Node}

theorem length_of_mem_ptr (hsize : ∀ node ∈ blocks, node.size = baseSize) :
    ∀ block ∈ blocks.map Node.ptr, block.length = baseSize := by
  intro block hblock
  obtain ⟨node, hnode, rfl⟩ := List.mem_map.mp hblock
  exact hsize node hnode

theorem length_bytesOf (hsize : ∀ node ∈ blocks, node.size = baseSize) :
    (bytesOf blocks).length = baseSize * blocks.length := by
  rw [bytesOf, length_flatten (length_of_mem_ptr hsize), List.length_map]

theorem bytesOf_drop (hsize : ∀ node ∈ blocks, node.size = baseSize) {count : ℕ}
    (hcount : count ≤ blocks.length) :
    bytesOf (blocks.drop count) = (bytesOf blocks).drop (baseSize * count) := by
  rw [bytesOf, List.map_drop, drop_flatten (length_of_mem_ptr hsize) (by simpa using hcount)]
  rfl

/-! ### The loops -/

/-- Where the cursor goes when a copy of at most one block ends: the next block when the copy ends
with its block. -/
theorem next_eq_seat {curr npos len : ℕ} {rest : List Node} (hbase : 0 < baseSize)
    (hends : npos + len ≤ baseSize) :
    (if npos + len = baseSize then next curr rest else some curr) =
      (seat baseSize (rest.length + 1) (npos + len)).map (curr + ·) := by
  by_cases hfull : npos + len = baseSize
  · rw [if_pos hfull, hfull, seat, next]
    cases rest with
    | nil => simp
    | cons after tail =>
      have hmore : baseSize ≠ baseSize * (List.length (after :: tail) + 1) := by
        have hlong : baseSize * 1 < baseSize * (List.length (after :: tail) + 1) :=
          Nat.mul_lt_mul_of_pos_left (by simp) hbase
        omega
      rw [if_neg (by simp), if_neg hmore, Nat.div_self hbase]
      rfl
  · have hmore : npos + len ≠ baseSize * (rest.length + 1) := by
      have hlong : baseSize * 1 ≤ baseSize * (rest.length + 1) :=
        Nat.mul_le_mul_left _ (by omega)
      omega
    rw [if_neg hfull, seat, if_neg hmore, Nat.div_eq_of_lt (by omega)]
    rfl

/-- Where the cursor goes when the copy leaves its first block full and goes on behind it. -/
theorem seat_succ {count offset rest : ℕ} (hbase : 0 < baseSize) (curr : ℕ)
    (hoffset : offset = baseSize + rest) :
    (seat baseSize (count + 1) offset).map (curr + ·) =
      (seat baseSize count rest).map (curr + 1 + ·) := by
  subst hoffset
  have hiff : baseSize + rest = baseSize * (count + 1) ↔ rest = baseSize * count := by
    rw [Nat.mul_succ]
    omega
  by_cases hend : rest = baseSize * count
  · rw [seat, if_pos (hiff.mpr hend), seat, if_pos hend]
    rfl
  · rw [seat, if_neg (hiff.not.mpr hend), seat, if_neg hend, Nat.add_div_left _ hbase]
    simp only [Option.map_some, Option.some.injEq]
    omega

/-- One turn of the loop of `write` that fills its block and goes on in the next one. -/
theorem writeLoop_step {node after filled : Node} {tail stored : List Node} {npos ncap curr : ℕ}
    {position stop : ℕ} {buf : List UInt8} {last : Option ℕ} (hlong : ncap < buf.length)
    (hcopy : node.copyIn npos (buf.take ncap) = .ok filled) (hafter : after.size = baseSize)
    (hloop : writeLoop (after :: tail) 0 baseSize (buf.drop ncap) (curr + 1) (position + ncap) =
      .ok (stored, last, stop)) :
    writeLoop (node :: after :: tail) npos ncap buf curr position =
      .ok (filled :: stored, last, stop) := by
  rw [writeLoop, if_neg (by omega), hcopy]
  simp only [bind, Except.bind, hafter, hloop]

/-- A cursor counted from block `curr` on, as a cursor of the whole list. -/
theorem seat_drop {count curr : ℕ} (hbase : 0 < baseSize) (hcurr : curr ≤ count) (rest : ℕ) :
    (seat baseSize (count - curr) rest).map (curr + ·) =
      seat baseSize count (baseSize * curr + rest) := by
  have hiff : baseSize * curr + rest = baseSize * count ↔ rest = baseSize * (count - curr) := by
    have hsplit : baseSize * count = baseSize * curr + baseSize * (count - curr) := by
      rw [← Nat.mul_add, Nat.add_sub_cancel' hcurr]
    omega
  by_cases hend : rest = baseSize * (count - curr)
  · rw [seat, if_pos hend, seat, if_pos (hiff.mpr hend)]
    rfl
  · rw [seat, if_neg hend, seat, if_neg (hiff.not.mpr hend), Nat.mul_add_div hbase]
    rfl

/-- Assumes: blocks of one size, a start inside the first of them, and room for the bytes. The loop
of `write` overwrites the bytes from the start on and leaves the cursor behind them. -/
theorem writeLoop_eq (hbase : 0 < baseSize) (blocks : List Node) :
    ∀ (npos : ℕ) (buf : List UInt8) (curr position : ℕ),
      (∀ node ∈ blocks, node.size = baseSize) → npos < baseSize → buf ≠ [] →
      npos + buf.length ≤ baseSize * blocks.length →
      ∃ filled, writeLoop blocks npos (baseSize - npos) buf curr position =
          .ok (filled, (seat baseSize blocks.length (npos + buf.length)).map (curr + ·),
            position + buf.length) ∧
        filled.length = blocks.length ∧ (∀ node ∈ filled, node.size = baseSize) ∧
        bytesOf filled = overwrite (bytesOf blocks) npos buf := by
  induction blocks with
  | nil =>
    intro npos buf curr position _ _ hbuf hfits
    have hpos := List.length_pos_of_ne_nil hbuf
    simp only [List.length_nil, Nat.mul_zero] at hfits
    omega
  | cons node rest ih =>
    intro npos buf curr position hsize hnpos hbuf hfits
    have hnode : node.size = baseSize := hsize node List.mem_cons_self
    have hptr : node.ptr.length = baseSize := hnode
    have hrest : ∀ other ∈ rest, other.size = baseSize := fun other hother ↦
      hsize other (List.mem_cons_of_mem _ hother)
    have hcopied (data : List UInt8) (hdata : npos + data.length ≤ baseSize) :
        node.copyIn npos data = .ok ⟨overwrite node.ptr npos data⟩ ∧
          (⟨overwrite node.ptr npos data⟩ : Node).size = baseSize := by
      refine ⟨by rw [Node.copyIn, if_pos (by omega)], ?_⟩
      rw [Node.size, length_overwrite (by omega), hptr]
    by_cases hshort : buf.length ≤ baseSize - npos
    · obtain ⟨hcopy, hfilled⟩ := hcopied buf (by omega)
      refine ⟨⟨overwrite node.ptr npos buf⟩ :: rest, ?_, rfl, ?_, ?_⟩
      · rw [writeLoop, if_pos hshort, hcopy, hnode, next_eq_seat hbase (by omega)]
        rfl
      · exact List.forall_mem_cons.mpr ⟨hfilled, hrest⟩
      · rw [bytesOf_cons, bytesOf_cons, overwrite_append_left _ (by omega)]
    · -- the first block is filled to its end and the copy goes on in the next one
      obtain ⟨hcopy, hfilled⟩ := hcopied (buf.take (baseSize - npos)) (by
        rw [List.length_take]
        omega)
      cases rest with
      | nil =>
        simp only [List.length_cons, List.length_nil, Nat.zero_add, Nat.mul_one] at hfits
        omega
      | cons after tail =>
        have hafter : after.size = baseSize := hrest after List.mem_cons_self
        have hdropped : (buf.drop (baseSize - npos)).length = buf.length - (baseSize - npos) :=
          List.length_drop
        obtain ⟨filled, hloop, hlength, hsizes, hbytes⟩ :=
          ih 0 (buf.drop (baseSize - npos)) (curr + 1) (position + (baseSize - npos)) hrest hbase
            (List.ne_nil_of_length_pos (by omega)) (by
              rw [List.length_cons, Nat.mul_succ] at hfits
              omega)
        rw [Nat.sub_zero, Nat.zero_add] at hloop
        refine ⟨⟨overwrite node.ptr npos (buf.take (baseSize - npos))⟩ :: filled, ?_, ?_, ?_, ?_⟩
        · have hstop : position + (baseSize - npos) + (buf.drop (baseSize - npos)).length =
              position + buf.length := by omega
          have hbehind : npos + buf.length =
              baseSize + (buf.drop (baseSize - npos)).length := by omega
          rw [writeLoop_step (by omega) hcopy hafter hloop, hstop]
          exact congrArg (fun last ↦ Except.ok (_, last, _)) (seat_succ hbase curr hbehind).symm
        · simp only [List.length_cons, hlength]
        · exact List.forall_mem_cons.mpr ⟨hfilled, hsizes⟩
        · have hends : npos + (buf.take (baseSize - npos)).length = node.ptr.length := by
            rw [List.length_take, hptr]
            omega
          rw [bytesOf_cons, bytesOf_cons, hbytes, ← overwrite_split _ _ hends,
            List.take_append_drop]

/-- One turn of the loop of `read` that empties its block and goes on in the next one. -/
theorem readLoop_step {node after : Node} {tail : List Node} {npos ncap size curr : ℕ}
    {position stop : ℕ} {bytes more : List UInt8} {last : Option ℕ} (hlong : ncap < size)
    (hcopy : node.copyOut npos ncap = .ok bytes) (hafter : after.size = baseSize)
    (hloop : readLoop (after :: tail) 0 baseSize (size - ncap) (curr + 1) (position + ncap) =
      .ok (more, last, stop)) :
    readLoop (node :: after :: tail) npos ncap size curr position =
      .ok (bytes ++ more, last, stop) := by
  rw [readLoop, if_neg (by omega), if_neg (by omega), hcopy]
  simp only [bind, Except.bind, hafter, hloop]

/-- Assumes: more bytes than a block has behind a position. They are the rest of the block and bytes
behind it. -/
theorem take_past_block {node : Node} (hptr : node.ptr.length = baseSize) {npos size : ℕ}
    (hlong : baseSize - npos ≤ size) (behind : List UInt8) :
    (node.ptr.drop npos ++ behind).take size =
      node.ptr.drop npos ++ behind.take (size - (baseSize - npos)) := by
  rw [List.take_append, List.take_of_length_le (by rw [List.length_drop]; omega),
    List.length_drop, hptr]

/-- Assumes: blocks of one size, a start inside the first of them, and enough bytes behind it. The
loop of `read` copies the bytes from the start on and leaves the cursor behind them. -/
theorem readLoop_eq (hbase : 0 < baseSize) (blocks : List Node) :
    ∀ (npos size curr position : ℕ), (∀ node ∈ blocks, node.size = baseSize) → npos < baseSize →
      blocks ≠ [] → npos + size ≤ baseSize * blocks.length →
      readLoop blocks npos (baseSize - npos) size curr position =
        .ok (((bytesOf blocks).drop npos).take size,
          (seat baseSize blocks.length (npos + size)).map (curr + ·), position + size) := by
  induction blocks with
  | nil =>
    intro npos size curr position _ _ hnonempty _
    exact absurd rfl hnonempty
  | cons node rest ih =>
    intro npos size curr position hsize hnpos _ hfits
    have hnode : node.size = baseSize := hsize node List.mem_cons_self
    have hptr : node.ptr.length = baseSize := hnode
    have hrest : ∀ other ∈ rest, other.size = baseSize := fun other hother ↦
      hsize other (List.mem_cons_of_mem _ hother)
    have hdrop : (bytesOf (node :: rest)).drop npos = node.ptr.drop npos ++ bytesOf rest := by
      rw [bytesOf_cons, List.drop_append_of_le_length (by omega)]
    have hseat (hends : npos + size ≤ baseSize) :
        (if npos + size = baseSize then next curr rest else some curr) =
          (seat baseSize (node :: rest).length (npos + size)).map (curr + ·) :=
      next_eq_seat hbase hends
    by_cases hzero : size = 0
    · rw [readLoop, if_pos hzero, ← hseat (by omega), if_neg (by omega), hzero, List.take_zero]
      rfl
    by_cases hshort : size ≤ baseSize - npos
    · have hcopy : node.copyOut npos size = .ok ((node.ptr.drop npos).take size) := by
        rw [Node.copyOut, if_pos (by omega)]
      rw [readLoop, if_neg hzero, if_pos hshort, hcopy, hnode, ← hseat (by omega), hdrop,
        List.take_append_of_le_length (by rw [List.length_drop]; omega)]
      simp only [bind, Except.bind, eq_comm]
    · have hcopy : node.copyOut npos (baseSize - npos) = .ok (node.ptr.drop npos) := by
        rw [Node.copyOut, if_pos (by omega),
          List.take_of_length_le (by rw [List.length_drop]; omega)]
      cases rest with
      | nil =>
        simp only [List.length_cons, List.length_nil, Nat.zero_add, Nat.mul_one] at hfits
        omega
      | cons after tail =>
        have hloop :=
          ih 0 (size - (baseSize - npos)) (curr + 1) (position + (baseSize - npos)) hrest
          hbase (List.cons_ne_nil _ _) (by
            rw [List.length_cons, Nat.mul_succ] at hfits
            omega)
        rw [Nat.sub_zero, Nat.zero_add, List.drop_zero] at hloop
        have hstop :
            position + (baseSize - npos) + (size - (baseSize - npos)) = position + size := by
          omega
        have hbehind : npos + size = baseSize + (size - (baseSize - npos)) := by omega
        have hlast : (seat baseSize (node :: after :: tail).length (npos + size)).map (curr + ·) =
            (seat baseSize (after :: tail).length (size - (baseSize - npos))).map (curr + 1 + ·) :=
          seat_succ hbase curr hbehind
        rw [readLoop_step (by omega) hcopy (hrest after List.mem_cons_self) hloop, hstop, hdrop,
          take_past_block hptr (by omega), hlast]

end Blocks

/-! ### Growing -/

variable (junk : ℕ → ℕ → UInt8)

/-- The `count` fresh blocks linked behind `start` blocks. -/
def freshBlocks (baseSize start count : ℕ) : List Node :=
  (List.range' start count).map fun i ↦ Node.alloc (junk i) baseSize

theorem length_freshBlocks (baseSize start count : ℕ) :
    (freshBlocks junk baseSize start count).length = count := by
  rw [freshBlocks, List.length_map, List.length_range']

theorem size_of_mem_freshBlocks {baseSize start count : ℕ} :
    ∀ node ∈ freshBlocks junk baseSize start count, node.size = baseSize := by
  intro node hnode
  obtain ⟨i, _, rfl⟩ := List.mem_map.mp hnode
  simp only [Node.size, Node.alloc, List.length_map, List.length_range]

/-- The linking loop appends fresh blocks, and `first` becomes the block in front of them. -/
theorem linkBlocks_eq (baseSize count : ℕ) :
    ∀ (root : List Node) (first : Option ℕ),
      linkBlocks junk baseSize count root first =
        (root ++ freshBlocks junk baseSize root.length count,
          if first = none ∧ 0 < count then some (root.length - 1) else first) := by
  induction count with
  | zero =>
    intro root first
    simp [linkBlocks, freshBlocks]
  | succ count ih =>
    intro root first
    rw [linkBlocks, ih, List.length_append, List.length_singleton, freshBlocks, freshBlocks,
      List.range'_succ, List.map_cons, List.append_assoc, List.singleton_append]
    congr 1
    cases first <;> simp

/-- A byte array whose capacity counts its blocks at the block size. -/
structure Measured (b : ByteArray) : Prop where
  baseSize_pos : 0 < b.baseSize
  capacity_eq : b.capacity = b.baseSize * b.root.length

/-- The position is inside the capacity. -/
structure Counted (b : ByteArray) : Prop extends Measured b where
  position_le : b.position ≤ b.capacity

/-- The blocks are equal as well. There is a block because `m_root` is set by the constructor and
never reset. -/
structure Shaped (b : ByteArray) : Prop extends Counted b where
  root_ne : b.root ≠ []
  block_size : ∀ node ∈ b.root, node.size = b.baseSize

theorem Shaped.length_text {b : ByteArray} (hshaped : Shaped b) : b.text.length = b.capacity := by
  rw [text, length_flatten (length_of_mem_ptr hshaped.block_size), List.length_map,
    hshaped.capacity_eq]

theorem Shaped.baseSize_le {b : ByteArray} (hshaped : Shaped b) : b.baseSize ≤ b.capacity := by
  rw [hshaped.capacity_eq]
  exact Nat.le_mul_of_pos_right _ (List.length_pos_of_ne_nil hshaped.root_ne)

/-- The number of blocks that `addCapacity(size)` links. -/
def growth (b : ByteArray) (size : ℕ) : ℕ :=
  if size ≤ b.getCapacity then 0
  else size / b.baseSize + if b.getCapacity < size % b.baseSize then 1 else 0

/-- `addCapacity` links `growth` fresh blocks behind the old ones. Without any free space it moves
the cursor to the last old block. -/
theorem addCapacity_eq {b : ByteArray} (size : ℕ) (hcounted : Counted b) :
    addCapacity junk size b =
      { b with
        root := b.root ++ freshBlocks junk b.baseSize b.root.length (growth b size)
        capacity := b.baseSize * (b.root.length + growth b size)
        curr := if b.getCapacity = 0 ∧ 0 < size then some (b.root.length - 1) else b.curr } := by
  by_cases hroom : size ≤ b.getCapacity
  · have hcurr : ¬ (b.getCapacity = 0 ∧ 0 < size) := by omega
    rw [addCapacity, if_pos (Or.inr hroom), growth, if_pos hroom, if_neg hcurr, Nat.add_zero,
      ← hcounted.capacity_eq]
    simp [freshBlocks]
  · have hgrow : growth b size =
        size / b.baseSize + if b.getCapacity < size % b.baseSize then 1 else 0 := by
      rw [growth, if_neg hroom]
    have hcount : 0 < growth b size := by
      rw [hgrow]
      by_cases hsmall : size < b.baseSize
      · rw [Nat.mod_eq_of_lt hsmall, if_pos (by omega)]
        exact Nat.succ_pos _
      · have hdiv : 0 < size / b.baseSize := Nat.div_pos (by omega) hcounted.baseSize_pos
        omega
    have hcapacity : b.capacity + growth b size * b.baseSize =
        b.baseSize * (b.root.length + growth b size) := by
      rw [hcounted.capacity_eq, Nat.mul_add, Nat.mul_comm (growth b size)]
    have hsize : 0 < size := by omega
    rw [addCapacity, if_neg (by omega)]
    simp only [linkBlocks_eq, ← hgrow, hcapacity, hcount, hsize, and_self, and_true, if_true]

/-- Growing makes room for the bytes announced. -/
theorem le_growth {b : ByteArray} (size : ℕ) (hcounted : Counted b) :
    b.position + size ≤ b.baseSize * (b.root.length + growth b size) := by
  have hcapacity := hcounted.capacity_eq
  have hposition := hcounted.position_le
  rw [Nat.mul_add, ← hcapacity, growth, getCapacity]
  split_ifs with hroom hmod
  · omega
  · have hdiv := Nat.div_add_mod size b.baseSize
    have hlt := Nat.mod_lt size hcounted.baseSize_pos
    rw [Nat.mul_add, Nat.mul_one]
    omega
  · have hdiv := Nat.div_add_mod size b.baseSize
    rw [Nat.add_zero]
    omega

/-! ### `write` and `read` -/

theorem text_eq_bytesOf (b : ByteArray) : b.text = bytesOf b.root := rfl

/-- The blocks of `b` once `addCapacity(size)` has linked its fresh ones. -/
def grown (b : ByteArray) (size : ℕ) : List Node :=
  b.root ++ freshBlocks junk b.baseSize b.root.length (growth b size)

theorem length_grown (b : ByteArray) (size : ℕ) :
    (grown junk b size).length = b.root.length + growth b size := by
  rw [grown, List.length_append, length_freshBlocks]

theorem size_of_mem_grown {b : ByteArray} (hshaped : Shaped b) (size : ℕ) :
    ∀ node ∈ grown junk b size, node.size = b.baseSize := by
  intro node hnode
  rcases List.mem_append.mp hnode with hold | hfresh
  · exact hshaped.block_size node hold
  · exact size_of_mem_freshBlocks junk node hfresh

/-- What `write(buf)` leaves when it copies to `offset`: the grown blocks with the bytes in place,
the cursor behind them, and the position and size moved on. -/
structure Written (b : ByteArray) (buf : List UInt8) (offset : ℕ) (after : ByteArray) : Prop where
  shaped : Shaped after
  baseSize_eq : after.baseSize = b.baseSize
  endian_eq : after.endian = b.endian
  position_eq : after.position = b.position + buf.length
  size_eq : after.size = max b.size (b.position + buf.length)
  length_eq : after.root.length = b.root.length + growth b buf.length
  curr_eq : after.curr = seat b.baseSize after.root.length (offset + buf.length)
  text_eq : after.text = overwrite (bytesOf (grown junk b buf.length)) offset buf

/-- Assumes: the cursor `addCapacity` leaves is at the block of `offset`, which lies where the
position lies in its block, and the bytes fit behind it. Then `write` copies to `offset`. -/
theorem write_eq {b : ByteArray} {buf : List UInt8} {offset : ℕ} (hshaped : Shaped b)
    (hbuf : buf ≠ [])
    (hcurr : (if b.getCapacity = 0 ∧ 0 < buf.length then some (b.root.length - 1) else b.curr) =
      some (offset / b.baseSize))
    (hmod : b.position % b.baseSize = offset % b.baseSize)
    (hfits : offset + buf.length ≤ b.baseSize * (b.root.length + growth b buf.length)) :
    ∃ after, write junk buf b = .ok () after ∧ Written junk b buf offset after := by
  have hbase := hshaped.baseSize_pos
  have hlen := List.length_pos_of_ne_nil hbuf
  have hsizes := size_of_mem_grown junk hshaped buf.length
  have hlength := length_grown junk b buf.length
  have hsplit : b.baseSize * (offset / b.baseSize) + offset % b.baseSize = offset :=
    Nat.div_add_mod _ _
  have hblock : offset / b.baseSize ≤ (grown junk b buf.length).length := by
    rw [hlength]
    exact Nat.le_of_lt (Nat.div_lt_of_lt_mul (by omega))
  have hroom : offset % b.baseSize + buf.length ≤
      b.baseSize * ((grown junk b buf.length).drop (offset / b.baseSize)).length := by
    rw [List.length_drop, Nat.mul_sub, hlength]
    omega
  obtain ⟨filled, hloop, hcount, hfilled, hbytes⟩ :=
    writeLoop_eq hbase ((grown junk b buf.length).drop (offset / b.baseSize))
      (offset % b.baseSize) buf (offset / b.baseSize) b.position
      (fun node hnode ↦ hsizes node (List.mem_of_mem_drop hnode)) (Nat.mod_lt _ hbase) hbuf hroom
  have hlast : (seat b.baseSize ((grown junk b buf.length).drop (offset / b.baseSize)).length
      (offset % b.baseSize + buf.length)).map (offset / b.baseSize + ·) =
        seat b.baseSize (b.root.length + growth b buf.length) (offset + buf.length) := by
    rw [List.length_drop, seat_drop hbase hblock, hlength, ← Nat.add_assoc, hsplit]
  have hrootLength : ((grown junk b buf.length).take (offset / b.baseSize) ++ filled).length =
      b.root.length + growth b buf.length := by
    rw [List.length_append, hcount, List.length_take, List.length_drop, hlength]
    omega
  refine ⟨{ b with
    root := (grown junk b buf.length).take (offset / b.baseSize) ++ filled
    capacity := b.baseSize * (b.root.length + growth b buf.length)
    curr := seat b.baseSize (b.root.length + growth b buf.length) (offset + buf.length)
    position := b.position + buf.length
    size := max b.size (b.position + buf.length) }, ?_, ?_⟩
  · have hmax : (if b.size < b.position + buf.length then b.position + buf.length else b.size) =
        max b.size (b.position + buf.length) := by
      split_ifs <;> omega
    rw [write, if_neg hbuf, addCapacity_eq junk _ hshaped.toCounted]
    simp only [hcurr, hmod]
    rw [grown] at hloop hlast
    rw [hloop, hlast]
    simp only [hmax]
    rfl
  · refine ⟨⟨⟨⟨hbase, ?_⟩, ?_⟩, ?_, ?_⟩, rfl, rfl, rfl, rfl, hrootLength, ?_, ?_⟩
    · exact congrArg (b.baseSize * ·) hrootLength.symm
    · exact le_growth buf.length hshaped.toCounted
    · refine List.ne_nil_of_length_pos (hrootLength.symm ▸ ?_)
      exact Nat.add_pos_left (List.length_pos_of_ne_nil hshaped.root_ne) _
    · intro node hnode
      rcases List.mem_append.mp hnode with hkept | hcopied
      · exact hsizes node (List.mem_of_mem_take hkept)
      · exact hfilled node hcopied
    · exact congrArg (seat b.baseSize · _) hrootLength.symm
    · have htake : (bytesOf ((grown junk b buf.length).take (offset / b.baseSize))).length =
          b.baseSize * (offset / b.baseSize) := by
        rw [length_bytesOf fun node hnode ↦ hsizes node (List.mem_of_mem_take hnode),
          List.length_take_of_le hblock]
      rw [text_eq_bytesOf, bytesOf_append, hbytes, ← overwrite_append_right, htake, hsplit,
        ← bytesOf_append, List.take_append_drop]

/-- Equal blocks that the capacity counts, the position inside the text, the text inside the
blocks, and the cursor at the block of the position, null exactly at the end of the blocks. -/
structure Placed (b : ByteArray) : Prop extends Measured b where
  block_size : ∀ node ∈ b.root, node.size = b.baseSize
  position_le : b.position ≤ b.size
  size_le : b.size ≤ b.capacity
  curr_eq : b.curr = if b.position = b.capacity then none else some (b.position / b.baseSize)

/-- The shape the source keeps: a placed cursor in an array that has a block. -/
structure WellFormed (b : ByteArray) : Prop extends Placed b where
  root_ne : b.root ≠ []

theorem WellFormed.shaped {b : ByteArray} (hb : WellFormed b) : Shaped b :=
  ⟨⟨hb.toMeasured, hb.position_le.trans hb.size_le⟩, hb.root_ne, hb.block_size⟩

/-- Assumes: a well-formed array with the position in front of its end, and enough bytes behind it.
The walk of `read` copies out the bytes from the position on. -/
theorem readFrom_eq {b : ByteArray} (hb : WellFormed b) {size start : ℕ}
    (hposition : b.position < b.capacity) (hsize : b.position + size ≤ b.capacity) :
    b.readFrom size start = .ok ((b.text.drop b.position).take size,
      seat b.baseSize b.root.length (b.position + size), start + size) := by
  have hbase := hb.baseSize_pos
  have hcapacity := hb.capacity_eq
  have hsplit : b.baseSize * (b.position / b.baseSize) + b.position % b.baseSize = b.position :=
    Nat.div_add_mod _ _
  have hblock : b.position / b.baseSize < b.root.length :=
    Nat.div_lt_of_lt_mul (by omega)
  have hcurr : b.curr = some (b.position / b.baseSize) := by
    rw [hb.curr_eq, if_neg (by omega)]
  have hsizes : ∀ node ∈ b.root.drop (b.position / b.baseSize), node.size = b.baseSize :=
    fun node hnode ↦ hb.block_size node (List.mem_of_mem_drop hnode)
  have hroom : b.position % b.baseSize + size ≤
      b.baseSize * (b.root.drop (b.position / b.baseSize)).length := by
    rw [List.length_drop, Nat.mul_sub]
    omega
  have hnonempty : b.root.drop (b.position / b.baseSize) ≠ [] := by
    intro hnil
    have hlength := congrArg List.length hnil
    rw [List.length_drop, List.length_nil] at hlength
    omega
  have hloop := readLoop_eq hbase (b.root.drop (b.position / b.baseSize)) (b.position % b.baseSize)
    size (b.position / b.baseSize) start hsizes (Nat.mod_lt _ hbase) hnonempty hroom
  rw [List.length_drop, seat_drop hbase hblock.le, ← Nat.add_assoc, hsplit,
    bytesOf_drop hb.block_size hblock.le, List.drop_drop, hsplit] at hloop
  obtain ⟨node, rest, hdrop⟩ := List.exists_cons_of_ne_nil hnonempty
  have hnode : node.size = b.baseSize := hsizes node (by rw [hdrop]; exact List.mem_cons_self)
  rw [hdrop] at hloop
  simp only [readFrom, hcurr, hdrop, hnode]
  exact hloop

/-- Assumes: a well-formed array with the position in front of its end, and enough bytes in the
text. `read` returns the bytes from the position on and moves only the position and the cursor. -/
theorem read_eq {b : ByteArray} (hb : WellFormed b) {size : ℕ} (hposition : b.position < b.capacity)
    (hsize : b.position + size ≤ b.size) :
    read size b = .ok ((b.text.drop b.position).take size)
      { b with
        position := b.position + size
        curr := seat b.baseSize b.root.length (b.position + size) } := by
  have hreadable : ¬ b.getReadableSize < size := by
    rw [getReadableSize]
    omega
  have hcapacity := hb.size_le
  rw [read, if_neg hreadable]
  simp only [readFrom_eq hb hposition (show b.position + size ≤ b.capacity by omega)]

/-- Assumes: a position up to the end of the text. Moving a well-formed array to it keeps it
well formed when the cursor goes to its block. -/
theorem WellFormed.move {b : ByteArray} (hb : WellFormed b) {position : ℕ}
    (hposition : position ≤ b.size) :
    WellFormed { b with
      position := position
      curr := seat b.baseSize b.root.length position } where
  baseSize_pos := hb.baseSize_pos
  root_ne := hb.root_ne
  block_size := hb.block_size
  capacity_eq := hb.capacity_eq
  position_le := hposition
  size_le := hb.size_le
  curr_eq := by
    rw [hb.capacity_eq]
    rfl

end ByteArray

end Cczoe.Net
