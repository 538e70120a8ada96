import Cczoe.Net.GatherReads

/-!
# Slices to receive into

`addWriteBuffers(len)` makes room for `len` bytes, names slices of the blocks for `readv` to fill
and counts the bytes into `m_size` before any has arrived. `ServesWrite` is what a caller relies on:
the slices follow one another from the position on, are `len` bytes long together, and the size
stays between the position and the capacity.

Three alignments break it. The loop leaves a block whose end it reaches even when nothing is left to
name, so a request that ends with the last block looks at the null block behind it. The size grows
by the whole length although the bytes from the position to the old size are counted already, so it
can pass the capacity. And without free space `addCapacity` leaves the cursor at the last full
block, where the slices then start. `addWriteBuffers_servesWrite_iff` says that these are all.
-/

set_option autoImplicit false
set_option relaxedAutoImplicit false

namespace Cczoe.Net

open Foundations.BlockStorage

namespace ByteArray

/-- The capacity once `addCapacity(len)` has linked its blocks. -/
def capacityFor (b : ByteArray) (len : ℕ) : ℕ := b.baseSize * (b.root.length + growth b len)

/-! ### The loop -/

/-- Assumes: blocks of one size, the last ones of the array `b`, a start inside the first of them,
and a request that ends in front of their end. The naming loop names consecutive slices. -/
theorem addWriteBuffersLoop_eq {b : ByteArray} (hsizes : ∀ node ∈ b.root, node.size = b.baseSize)
    (blocks : List Node) :
    ∀ (npos len curr size : ℕ), b.root.drop curr = blocks → npos < b.baseSize →
      npos + len < b.baseSize * blocks.length →
      ∃ slices, addWriteBuffersLoop blocks npos (b.baseSize - npos) len curr size =
          .ok (slices, size + len) ∧
        Consecutive b (b.baseSize * curr + npos) slices ∧ (slices.map Iovec.len).sum = len := by
  induction blocks with
  | nil =>
    intro npos len curr size _ _ hends
    rw [List.length_nil, Nat.mul_zero] at hends
    omega
  | cons node rest ih =>
    intro npos len curr size hdrop hnpos hends
    obtain ⟨hblock, -, hnext⟩ := of_drop_eq_cons hdrop
    by_cases hzero : len = 0
    · refine ⟨[], ?_, trivial, hzero.symm⟩
      unfold addWriteBuffersLoop
      rw [if_pos hzero, hzero, Nat.add_zero]
    by_cases hshort : len < b.baseSize - npos
    · refine ⟨[⟨curr, npos, len⟩], ?_, ?_, ?_⟩
      · unfold addWriteBuffersLoop
        rw [if_neg hzero, if_pos hshort]
      · exact consecutive_single hblock (Nat.pos_of_ne_zero hzero) (by omega)
      · simp only [List.map_cons, List.map_nil, List.sum_cons, List.sum_nil, Nat.add_zero]
    · -- the slice ends with its block, and the loop goes on at the start of the next one
      cases rest with
      | nil =>
        rw [List.length_singleton, Nat.mul_one] at hends
        omega
      | cons after tail =>
        have hafter : after.size = b.baseSize :=
          hsizes after (List.mem_of_mem_drop (hnext ▸ List.mem_cons_self))
        obtain ⟨slices, hloop, hslices, htotal⟩ := ih 0 (len - (b.baseSize - npos)) (curr + 1)
          (size + (b.baseSize - npos)) hnext (by omega) (by
            rw [List.length_cons, Nat.mul_succ] at hends
            omega)
        have hsize : size + (b.baseSize - npos) + (len - (b.baseSize - npos)) = size + len := by
          omega
        rw [Nat.sub_zero, hsize] at hloop
        refine ⟨⟨curr, npos, b.baseSize - npos⟩ :: slices, ?_, ?_, ?_⟩
        · rw [addWriteBuffersLoop, if_neg hzero, if_neg hshort]
          simp only [hafter, hloop, bind, Except.bind]
        · exact hslices.cons_toEnd hblock hnpos
        · rw [List.map_cons, List.sum_cons, htotal]
          dsimp only
          omega

/-- Assumes: blocks of one size, a start inside the first of them, and a request that reaches their
end. The naming loop looks at the null block behind the last one. -/
theorem addWriteBuffersLoop_beyond {baseSize : ℕ} (blocks : List Node) :
    ∀ (npos len curr size : ℕ), (∀ node ∈ blocks, node.size = baseSize) → npos < baseSize →
      baseSize * blocks.length ≤ npos + len →
      addWriteBuffersLoop blocks npos (baseSize - npos) len curr size = .error .nullBlock := by
  induction blocks with
  | nil =>
    intro npos len curr size _ _ _
    rfl
  | cons node rest ih =>
    intro npos len curr size hsizes hnpos hends
    rw [List.length_cons, Nat.mul_succ] at hends
    have hzero : len ≠ 0 := by omega
    have hlong : ¬ len < baseSize - npos := by omega
    cases rest with
    | nil => rw [addWriteBuffersLoop, if_neg hzero, if_neg hlong]
    | cons after tail =>
      have hrest : ∀ other ∈ after :: tail, other.size = baseSize := fun other hother ↦
        hsizes other (List.mem_cons_of_mem _ hother)
      have hafter : after.size = baseSize := hrest after List.mem_cons_self
      have hloop := ih 0 (len - (baseSize - npos)) (curr + 1) (size + (baseSize - npos)) hrest
        (by omega) (by omega)
      rw [Nat.sub_zero] at hloop
      rw [addWriteBuffersLoop, if_neg hzero, if_neg hlong]
      simp only [hafter, hloop, bind, Except.bind]

/-! ### `addWriteBuffers` -/

variable (junk : ℕ → ℕ → UInt8)

/-- Assumes: the cursor `addCapacity` leaves is at the block of `offset`, which lies where the
position lies in its block, in front of the new capacity. `addWriteBuffers` then runs its loop over
the grown blocks from that of `offset` on. -/
theorem addWriteBuffers_loop {b : ByteArray} (hshaped : Shaped b) {len offset : ℕ} (hlen : 1 ≤ len)
    (hcurr : (if b.getCapacity = 0 ∧ 0 < len then some (b.root.length - 1) else b.curr) =
      some (offset / b.baseSize))
    (hmod : b.position % b.baseSize = offset % b.baseSize) (hoffset : offset < b.capacityFor len) :
    addWriteBuffers junk len b =
      match addWriteBuffersLoop ((grown junk b len).drop (offset / b.baseSize))
        (offset % b.baseSize) (b.baseSize - offset % b.baseSize) len (offset / b.baseSize)
        b.size with
      | .error fault => .error fault (addCapacity junk len b)
      | .ok (slices, size) => .ok (len, slices) { addCapacity junk len b with size := size } := by
  have hgrown := addCapacity_eq junk len hshaped.toCounted
  have hroot : (addCapacity junk len b).root = grown junk b len := by rw [hgrown, grown]
  have hbaseSize : (addCapacity junk len b).baseSize = b.baseSize := by rw [hgrown]
  have hposition : (addCapacity junk len b).position = b.position := by rw [hgrown]
  have hsize : (addCapacity junk len b).size = b.size := by rw [hgrown]
  have hcursor : (addCapacity junk len b).curr = some (offset / b.baseSize) := by rw [hgrown, hcurr]
  have hblock : offset / b.baseSize < (grown junk b len).length := by
    rw [length_grown]
    exact Nat.div_lt_of_lt_mul hoffset
  obtain ⟨node, rest, hdrop⟩ := List.exists_cons_of_ne_nil
    (show (grown junk b len).drop (offset / b.baseSize) ≠ [] by
      rw [Ne, List.drop_eq_nil_iff]
      omega)
  have hnode : node.size = b.baseSize := size_of_mem_grown junk hshaped len node
    (List.mem_of_mem_drop (hdrop ▸ List.mem_cons_self))
  rw [addWriteBuffers, if_neg (by omega), hdrop]
  cases hloop : addWriteBuffersLoop (node :: rest) (offset % b.baseSize)
      (b.baseSize - offset % b.baseSize) len (offset / b.baseSize) b.size with
  | error fault =>
    simp only [hcursor, hroot, hdrop, hposition, hbaseSize, hmod, hnode, hsize, hloop]
  | ok named =>
    simp only [hcursor, hroot, hdrop, hposition, hbaseSize, hmod, hnode, hsize, hloop]

/-- Assumes: an offset in front of the new capacity. How far the grown blocks reach behind it. -/
theorem length_grown_drop {b : ByteArray} (len : ℕ) {offset : ℕ}
    (hoffset : offset < b.capacityFor len) :
    b.baseSize * ((grown junk b len).drop (offset / b.baseSize)).length + offset =
      b.capacityFor len + offset % b.baseSize := by
  have hsplit : b.baseSize * (offset / b.baseSize) + offset % b.baseSize = offset :=
    Nat.div_add_mod _ _
  rw [List.length_drop, Nat.mul_sub, length_grown, ← capacityFor]
  omega

/-- Assumes: the cursor `addCapacity` leaves is at the block of `offset`, which lies where the
position lies in its block, and the request ends in front of the new capacity. `addWriteBuffers`
names the slices from `offset` on. -/
theorem addWriteBuffers_eq {b : ByteArray} (hshaped : Shaped b) {len offset : ℕ} (hlen : 1 ≤ len)
    (hcurr : (if b.getCapacity = 0 ∧ 0 < len then some (b.root.length - 1) else b.curr) =
      some (offset / b.baseSize))
    (hmod : b.position % b.baseSize = offset % b.baseSize)
    (hends : offset + len < b.capacityFor len) :
    ∃ slices after, addWriteBuffers junk len b = .ok (len, slices) after ∧
      after = { addCapacity junk len b with size := b.size + len } ∧
      Consecutive after offset slices ∧ (slices.map Iovec.len).sum = len := by
  have hgrown := addCapacity_eq junk len hshaped.toCounted
  have hroot : (addCapacity junk len b).root = grown junk b len := by rw [hgrown, grown]
  have hbaseSize : (addCapacity junk len b).baseSize = b.baseSize := by rw [hgrown]
  have hoffset : offset < b.capacityFor len := by omega
  have hreach := length_grown_drop junk len hoffset
  obtain ⟨after, hafter⟩ : ∃ after : ByteArray,
      after = { addCapacity junk len b with size := b.size + len } := ⟨_, rfl⟩
  have hroot' : after.root = grown junk b len := by rw [hafter, ← hroot]
  have hbase' : after.baseSize = b.baseSize := by rw [hafter, ← hbaseSize]
  obtain ⟨slices, hloop, hslices, htotal⟩ := addWriteBuffersLoop_eq (b := after)
    (by rw [hroot', hbase']; exact size_of_mem_grown junk hshaped len)
    ((grown junk b len).drop (offset / b.baseSize)) (offset % b.baseSize) len
    (offset / b.baseSize) b.size (by rw [hroot'])
    (by rw [hbase']; exact Nat.mod_lt _ hshaped.baseSize_pos) (by rw [hbase']; omega)
  rw [hbase', Nat.div_add_mod] at hslices
  rw [hbase'] at hloop
  refine ⟨slices, after, ?_, hafter, hslices, htotal⟩
  rw [addWriteBuffers_loop junk hshaped hlen hcurr hmod hoffset, hloop, hafter]

/-- Assumes: the cursor `addCapacity` leaves is at the block of `offset`, which lies where the
position lies in its block, and the request reaches the new capacity. `addWriteBuffers` looks at the
null block. -/
theorem addWriteBuffers_beyond {b : ByteArray} (hshaped : Shaped b) {len offset : ℕ}
    (hlen : 1 ≤ len)
    (hcurr : (if b.getCapacity = 0 ∧ 0 < len then some (b.root.length - 1) else b.curr) =
      some (offset / b.baseSize))
    (hmod : b.position % b.baseSize = offset % b.baseSize) (hoffset : offset < b.capacityFor len)
    (hends : b.capacityFor len ≤ offset + len) :
    addWriteBuffers junk len b = .error .nullBlock (addCapacity junk len b) := by
  have hreach := length_grown_drop junk len hoffset
  have hloop := addWriteBuffersLoop_beyond ((grown junk b len).drop (offset / b.baseSize))
    (offset % b.baseSize) len (offset / b.baseSize) b.size
    (fun node hnode ↦ size_of_mem_grown junk hshaped len node (List.mem_of_mem_drop hnode))
    (Nat.mod_lt _ hshaped.baseSize_pos) (by omega)
  rw [addWriteBuffers_loop junk hshaped hlen hcurr hmod hoffset, hloop]

/-- What `addWriteBuffers(len)` is for: it returns `len` and names consecutive slices from the
position on that are `len` bytes long together, and it leaves the size between the position and the
capacity. -/
def ServesWrite (b : ByteArray) (len : ℕ) : Prop :=
  ∃ slices after, addWriteBuffers junk len b = .ok (len, slices) after ∧
    after.position = b.position ∧ Consecutive after b.position slices ∧
    (slices.map Iovec.len).sum = len ∧ after.position ≤ after.size ∧ after.size ≤ after.capacity

/-- Consecutive slices of some length have one start. -/
theorem Consecutive.start_unique {b : ByteArray} {first second : ℕ} {slices : List Iovec}
    (hfirst : Consecutive b first slices) (hsecond : Consecutive b second slices)
    (hsome : 1 ≤ (slices.map Iovec.len).sum) : first = second := by
  cases slices with
  | nil => exact absurd hsome (by simp)
  | cons iov rest => exact hfirst.1.symm.trans hsecond.1

theorem capacity_le_capacityFor {b : ByteArray} (hb : WellFormed b) (len : ℕ) :
    b.capacity ≤ b.capacityFor len := by
  rw [hb.capacity_eq, capacityFor]
  exact Nat.mul_le_mul_left _ (Nat.le_add_right _ _)

/-- Assumes: a well-formed array without free space. The slices `addWriteBuffers` names, if it
returns, start in the last old block and not at the position. -/
theorem not_servesWrite_of_full {b : ByteArray} (hb : WellFormed b) {len : ℕ} (hlen : 1 ≤ len)
    (hfull : b.position = b.capacity) : ¬ ServesWrite junk b len := by
  have hbase := hb.baseSize_pos
  have hcapacity := hb.capacity_eq
  have hgrowth := capacity_le_capacityFor hb len
  have hlast : b.baseSize * (b.root.length - 1) + b.baseSize = b.capacity := by
    rw [hcapacity, ← Nat.mul_succ, Nat.succ_eq_add_one,
      Nat.sub_add_cancel (List.length_pos_of_ne_nil hb.root_ne)]
  have hcurr : (if b.getCapacity = 0 ∧ 0 < len then some (b.root.length - 1) else b.curr) =
      some (b.baseSize * (b.root.length - 1) / b.baseSize) := by
    rw [if_pos ⟨by rw [getCapacity]; omega, hlen⟩, Nat.mul_div_cancel_left _ hbase]
  have hmod : b.position % b.baseSize = b.baseSize * (b.root.length - 1) % b.baseSize := by
    rw [hfull, hcapacity, Nat.mul_mod_right, Nat.mul_mod_right]
  rintro ⟨slices, after, hok, -, hslices, htotal, -⟩
  by_cases hends : b.baseSize * (b.root.length - 1) + len < b.capacityFor len
  · obtain ⟨named, grownAfter, hnamed, -, hconsecutive, hsum⟩ :=
      addWriteBuffers_eq junk hb.shaped hlen hcurr hmod hends
    rw [hnamed] at hok
    obtain ⟨⟨-, rfl⟩, rfl⟩ : (len = len ∧ named = slices) ∧ grownAfter = after := by simpa using hok
    have hstart := Consecutive.start_unique hconsecutive hslices (by omega)
    omega
  · rw [addWriteBuffers_beyond junk hb.shaped hlen hcurr hmod (by omega) (by omega)] at hok
    exact absurd hok (by simp)

/-- Assumes: a well-formed array and at least one byte asked for. `addWriteBuffers` does what it is
for exactly when there is free space at the position, the request ends in front of the end of the
blocks, and the old size plus the request is inside them. -/
theorem addWriteBuffers_servesWrite_iff {b : ByteArray} (hb : WellFormed b) {len : ℕ}
    (hlen : 1 ≤ len) :
    ServesWrite junk b len ↔
      b.position < b.capacity ∧ b.position + len < b.capacityFor len ∧
        b.size + len ≤ b.capacityFor len := by
  by_cases hfull : b.position = b.capacity
  · exact ⟨fun hserves ↦ absurd hserves (not_servesWrite_of_full junk hb hlen hfull), by omega⟩
  have hfree : b.position < b.capacity := by
    have hsize := hb.size_le
    have hposition := hb.position_le
    omega
  have hgrowth := capacity_le_capacityFor hb len
  have hgrown := addCapacity_eq junk len hb.shaped.toCounted
  have hcurr : (if b.getCapacity = 0 ∧ 0 < len then some (b.root.length - 1) else b.curr) =
      some (b.position / b.baseSize) := by
    have hroom : b.getCapacity ≠ 0 := by
      rw [getCapacity]
      omega
    rw [if_neg fun hnone ↦ hroom hnone.1, hb.curr_eq, if_neg hfull]
  by_cases hends : b.position + len < b.capacityFor len
  · obtain ⟨slices, after, hnamed, hafter, hslices, htotal⟩ :=
      addWriteBuffers_eq junk hb.shaped hlen hcurr rfl hends
    have hposition : after.position = b.position := by rw [hafter, hgrown]
    have hsize : after.size = b.size + len := by rw [hafter]
    have hcapacity : after.capacity = b.capacityFor len := by rw [hafter, hgrown, capacityFor]
    constructor
    · rintro ⟨others, other, hok, -, -, -, -, hinside⟩
      rw [hnamed] at hok
      obtain ⟨-, rfl⟩ : (len = len ∧ slices = others) ∧ after = other := by simpa using hok
      exact ⟨hfree, hends, by omega⟩
    · rintro ⟨-, -, hinside⟩
      have hold := hb.position_le
      exact ⟨slices, after, hnamed, hposition, hslices, htotal, by omega, by omega⟩
  · refine ⟨?_, fun hcondition ↦ absurd hcondition.2.1 hends⟩
    rintro ⟨slices, after, hok, -⟩
    rw [addWriteBuffers_beyond junk hb.shaped hlen hcurr rfl (by omega) (by omega)] at hok
    exact absurd hok (by simp)

/-- One block of four bytes without any text, the array `ByteArray(4)` builds. -/
theorem wellFormed_ofBaseSize_four : WellFormed (ofBaseSize (fun _ _ ↦ 0) 4) :=
  ⟨⟨⟨by decide, by decide⟩, by decide, by decide, by decide, by decide⟩, by decide⟩

theorem servesWrite_three_of_four : ServesWrite (fun _ _ ↦ 0) (ofBaseSize (fun _ _ ↦ 0) 4) 3 :=
  (addWriteBuffers_servesWrite_iff _ wellFormed_ofBaseSize_four (by decide)).mpr
    ⟨by decide, by decide, by decide⟩

/-- A request for exactly the bytes of the one block looks at the null block behind it. -/
theorem addWriteBuffers_whole_block :
    WellFormed (ofBaseSize (fun _ _ ↦ 0) 4) ∧
      addWriteBuffers (fun _ _ ↦ 0) 4 (ofBaseSize (fun _ _ ↦ 0) 4) =
        .error .nullBlock (ofBaseSize (fun _ _ ↦ 0) 4) ∧
      ¬ ServesWrite (fun _ _ ↦ 0) (ofBaseSize (fun _ _ ↦ 0) 4) 4 := by
  have hnull : addWriteBuffers (fun _ _ ↦ 0) 4 (ofBaseSize (fun _ _ ↦ 0) 4) =
      .error .nullBlock (ofBaseSize (fun _ _ ↦ 0) 4) := rfl
  refine ⟨wellFormed_ofBaseSize_four, hnull, ?_⟩
  rintro ⟨slices, after, hok, -⟩
  rw [hnull] at hok
  exact absurd hok (by simp)

end ByteArray

end Cczoe.Net
