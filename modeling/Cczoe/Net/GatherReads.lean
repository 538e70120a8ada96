import Cczoe.Net.Positioning

/-!
# Gathering the readable bytes

Three loops of `bytearray.cpp` walk the readable bytes: the consuming `read`, the const `read`
behind `toString`, and `addReadBuffers`, which names slices of the blocks for `readv` and `writev`.
`addReadBuffers_placed` says that on a placed array they agree: the slices are non-empty, lie inside
their blocks, follow one another from the position on, and hold the first bytes of `toString`,
which are the bytes `read` returns.

`toString` and `addReadBuffers` are const: the model gives them no way to change the array.
-/

set_option autoImplicit false
set_option relaxedAutoImplicit false

namespace Cczoe.Net

open Foundations.BlockStorage

namespace ByteArray

/-- The bytes an `iovec` names. -/
def bytesAt (b : ByteArray) (iov : Iovec) : List UInt8 :=
  match b.root[iov.block]? with
  | none => []
  | some node => (node.ptr.drop iov.offset).take iov.len

/-- Non-empty slices inside their blocks, one behind the other from offset `start` of the
concatenated blocks on. -/
def Consecutive (b : ByteArray) : ℕ → List Iovec → Prop
  | _, [] => True
  | start, iov :: rest =>
    b.baseSize * iov.block + iov.offset = start ∧ 0 < iov.len ∧ iov.block < b.root.length ∧
      iov.offset + iov.len ≤ b.baseSize ∧ Consecutive b (start + iov.len) rest

variable {b : ByteArray}

/-- A slice inside its block. -/
theorem consecutive_single {curr npos len : ℕ} (hblock : curr < b.root.length) (hlen : 0 < len)
    (hfits : npos + len ≤ b.baseSize) :
    Consecutive b (b.baseSize * curr + npos) [⟨curr, npos, len⟩] :=
  ⟨rfl, hlen, hblock, hfits, trivial⟩

/-- Assumes: slices from the start of a block on. A slice of the block before up to its end goes in
front of them. -/
theorem Consecutive.cons_toEnd {curr npos : ℕ} {slices : List Iovec}
    (hslices : Consecutive b (b.baseSize * (curr + 1) + 0) slices) (hblock : curr < b.root.length)
    (hnpos : npos < b.baseSize) :
    Consecutive b (b.baseSize * curr + npos) (⟨curr, npos, b.baseSize - npos⟩ :: slices) := by
  have hstart : b.baseSize * curr + npos + (b.baseSize - npos) = b.baseSize * (curr + 1) + 0 := by
    rw [Nat.mul_succ]
    omega
  refine ⟨rfl, by dsimp only; omega, hblock, by dsimp only; omega, ?_⟩
  dsimp only
  rw [hstart]
  exact hslices

theorem bytesAt_of_drop {curr : ℕ} {node : Node} {rest : List Node}
    (hdrop : b.root.drop curr = node :: rest) (offset len : ℕ) :
    b.bytesAt ⟨curr, offset, len⟩ = (node.ptr.drop offset).take len := by
  simp only [bytesAt, (of_drop_eq_cons hdrop).2.1]

/-- Assumes: a placed array, a start inside block `curr`, and enough bytes behind it. The gathering
loop names consecutive slices that hold the bytes from the start on. -/
theorem addReadBuffersLoop_eq (hb : Placed b) (blocks : List Node) :
    ∀ (npos len curr : ℕ), b.root.drop curr = blocks → npos < b.baseSize → 0 < len →
      npos + len ≤ b.baseSize * blocks.length →
      ∃ slices, addReadBuffersLoop blocks npos (b.baseSize - npos) len curr = .ok slices ∧
        Consecutive b (b.baseSize * curr + npos) slices ∧
        (slices.map b.bytesAt).flatten = ((bytesOf blocks).drop npos).take len := by
  induction blocks with
  | nil =>
    intro npos len curr _ _ hlen hfits
    rw [List.length_nil, Nat.mul_zero] at hfits
    omega
  | cons node rest ih =>
    intro npos len curr hdrop hnpos hlen hfits
    have hmem : ∀ other ∈ node :: rest, other.size = b.baseSize := fun other hother ↦
      hb.block_size other (List.mem_of_mem_drop (hdrop ▸ hother))
    have hptr : node.ptr.length = b.baseSize := hmem node List.mem_cons_self
    obtain ⟨hblock, -, hnext⟩ := of_drop_eq_cons hdrop
    have hbytes : (bytesOf (node :: rest)).drop npos = node.ptr.drop npos ++ bytesOf rest := by
      rw [bytesOf_cons, List.drop_append_of_le_length (by omega)]
    by_cases hshort : len ≤ b.baseSize - npos
    · refine ⟨[⟨curr, npos, len⟩], by unfold addReadBuffersLoop; rw [if_pos hshort], ?_, ?_⟩
      · exact consecutive_single hblock hlen (by omega)
      · rw [List.map_singleton, List.flatten_singleton, bytesAt_of_drop hdrop, hbytes,
          List.take_append_of_le_length (by rw [List.length_drop]; omega)]
    · -- the slice ends with its block, and the walk goes on at the start of the next one
      cases rest with
      | nil =>
        rw [List.length_singleton, Nat.mul_one] at hfits
        omega
      | cons after tail =>
        have hafter : after.size = b.baseSize :=
          hmem after (List.mem_cons_of_mem _ List.mem_cons_self)
        obtain ⟨slices, hloop, hslices, hrest⟩ :=
          ih 0 (len - (b.baseSize - npos)) (curr + 1) hnext hb.baseSize_pos (by omega) (by
            rw [List.length_cons, Nat.mul_succ] at hfits
            omega)
        rw [Nat.sub_zero] at hloop
        refine ⟨⟨curr, npos, b.baseSize - npos⟩ :: slices, ?_, ?_, ?_⟩
        · rw [addReadBuffersLoop, if_neg hshort]
          simp only [hafter, hloop, bind, Except.bind]
        · exact hslices.cons_toEnd hblock hnpos
        · have hwhole : b.bytesAt ⟨curr, npos, b.baseSize - npos⟩ = node.ptr.drop npos := by
            rw [bytesAt_of_drop hdrop, List.take_of_length_le (by rw [List.length_drop]; omega)]
          rw [List.map_cons, List.flatten_cons, hrest, hwhole, hbytes,
            take_past_block hptr (by omega), List.drop_zero]

/-- Assumes: a placed array and a length in it. `addReadBuffers` names slices that hold that many
bytes from the position on. -/
theorem addReadBuffers_eq (hb : Placed b) (len : ℕ) :
    ∃ slices, addReadBuffers len b = .ok (min len b.getReadableSize, slices) ∧
      Consecutive b b.position slices ∧
      (slices.map b.bytesAt).flatten =
        (b.text.drop b.position).take (min len b.getReadableSize) := by
  by_cases hzero : min len b.getReadableSize = 0
  · refine ⟨[], ?_, trivial, ?_⟩
    · simp only [addReadBuffers, hzero, if_true]
    · rw [hzero, List.take_zero]
      rfl
  have hreadable : 0 < b.getReadableSize := by omega
  have hposition := hb.position_lt hreadable
  have hcapacity := hb.capacity_eq
  have hsplit : b.baseSize * (b.position / b.baseSize) + b.position % b.baseSize = b.position :=
    Nat.div_add_mod _ _
  have hblock : b.position / b.baseSize < b.root.length :=
    Nat.div_lt_of_lt_mul (hcapacity ▸ hposition)
  have hfits : b.position % b.baseSize + min len b.getReadableSize ≤
      b.baseSize * (b.root.drop (b.position / b.baseSize)).length := by
    have hsize := hb.size_le
    have hmin : min len b.getReadableSize ≤ b.size - b.position := Nat.min_le_right _ _
    rw [List.length_drop, Nat.mul_sub]
    omega
  obtain ⟨slices, hloop, hslices, hbytes⟩ :=
    addReadBuffersLoop_eq hb (b.root.drop (b.position / b.baseSize)) (b.position % b.baseSize)
      (min len b.getReadableSize) (b.position / b.baseSize) rfl
      (Nat.mod_lt _ hb.baseSize_pos) (by omega) hfits
  rw [hsplit] at hslices
  rw [bytesOf_drop hb.block_size hblock.le, List.drop_drop, hsplit] at hbytes
  refine ⟨slices, ?_, hslices, hbytes⟩
  have hcurr : b.curr = some (b.position / b.baseSize) := by
    rw [hb.curr_eq, if_neg (by omega)]
  have hnonempty : b.root.drop (b.position / b.baseSize) ≠ [] := by
    rw [Ne, List.drop_eq_nil_iff]
    omega
  obtain ⟨node, rest, hdrop⟩ := List.exists_cons_of_ne_nil hnonempty
  have hnode : node.size = b.baseSize := hb.block_size node
    (List.mem_of_mem_drop (hdrop ▸ List.mem_cons_self))
  rw [hdrop] at hloop
  simp only [addReadBuffers, if_neg hzero, hcurr, hdrop, hnode, hloop]

/-- Assumes: a placed array. `toString` returns the readable bytes. -/
theorem toString_eq (hb : Placed b) :
    b.toString = .ok ((b.text.drop b.position).take b.getReadableSize) := by
  by_cases hreadable : 0 < b.getReadableSize
  · have hposition := hb.position_lt hreadable
    have hsize := hb.size_le
    have hend : b.position + b.getReadableSize ≤ b.capacity := by
      rw [getReadableSize]
      omega
    rw [toString, if_pos hreadable, readAt, if_neg (Nat.lt_irrefl _)]
    simp only [readFrom_eq (hb.wellFormed (by omega)) hposition hend]
  · have hzero : b.getReadableSize = 0 := by omega
    rw [toString, if_neg hreadable, hzero, List.take_zero]

/-- Assumes: a placed array. `addReadBuffers` returns the shorter of the two lengths and names
consecutive slices that hold that many bytes of `toString`; and `toString` returns what `read`
returns for the whole readable text, nothing when there is none. -/
theorem addReadBuffers_placed (hb : Placed b) (len : ℕ) :
    ∃ slices bytes, addReadBuffers len b = .ok (min len b.getReadableSize, slices) ∧
      Consecutive b b.position slices ∧ b.toString = .ok bytes ∧
      (slices.map b.bytesAt).flatten = bytes.take (min len b.getReadableSize) ∧
      (b.getReadableSize = 0 → bytes = []) ∧
      (b.getReadableSize ≠ 0 → ∃ after, read b.getReadableSize b = .ok bytes after) := by
  obtain ⟨slices, hgather, hslices, hbytes⟩ := addReadBuffers_eq hb len
  refine ⟨slices, _, hgather, hslices, toString_eq hb, ?_, ?_, ?_⟩
  · rw [hbytes, List.take_take, Nat.min_assoc, Nat.min_self]
  · intro hzero
    rw [hzero, List.take_zero]
  · intro hreadable
    have hposition := hb.position_lt (Nat.pos_of_ne_zero hreadable)
    have hsize := hb.position_le
    have hend : b.position + b.getReadableSize ≤ b.size := by
      rw [getReadableSize]
      omega
    exact ⟨_, read_eq (hb.wellFormed (by omega)) hposition hend⟩

theorem addReadBuffers_placed_inFirstBlock :
    ∃ slices bytes, addReadBuffers 5 inFirstBlock = .ok (2, slices) ∧
      Consecutive inFirstBlock 1 slices ∧ inFirstBlock.toString = .ok bytes ∧
      (slices.map inFirstBlock.bytesAt).flatten = bytes.take 2 := by
  obtain ⟨slices, bytes, hgather, hslices, hstring, hbytes, -⟩ :=
    addReadBuffers_placed placed_inFirstBlock 5
  exact ⟨slices, bytes, hgather, hslices, hstring, hbytes⟩

end ByteArray

end Cczoe.Net
