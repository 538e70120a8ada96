import Mathlib.Logic.Function.Iterate
import Mathlib.Order.Bounds.Defs
import Cczoe.Net.CursorLaws

/-!
# Growing to the announced size

`addCapacity(size)` is called before every traversal that writes, and the traversals follow `next`
without a look at the null pointer. They need room for `size` bytes behind the position, the old
blocks where they were and a capacity that still counts the blocks: `MakesRoom`, which holds after
every call on an array whose capacity counts its blocks (`addCapacity_makesRoom`).

The number of new blocks comes from the quotient and the remainder of `size` and not from the
shortfall, so it can be larger than needed. `growth_isLeast_iff` says when it is the least one.

The source computes with `size_t`. `growWords` is that computation, and `growWords_eq` says that it
agrees with the one on natural numbers: the count never wraps, and the capacity does not unless the
blocks together have more bytes than 64 bits can count.
-/

set_option autoImplicit false
set_option relaxedAutoImplicit false

namespace Cczoe.Net.ByteArray

variable (junk : ℕ → ℕ → UInt8)

/-- What the callers of `addCapacity(size)` rely on. -/
structure MakesRoom (size : ℕ) (b after : ByteArray) : Prop where
  baseSize_eq : after.baseSize = b.baseSize
  position_eq : after.position = b.position
  room : size ≤ after.capacity - after.position
  capacity_eq : after.capacity = after.baseSize * after.root.length
  old_blocks : b.root <+: after.root
  enough : size ≤ b.capacity - b.position → after.root = b.root

/-- Assumes: a capacity that counts the blocks, blocks that are not empty, and a position inside
the capacity. `addCapacity` makes room for any size. -/
theorem addCapacity_makesRoom {b : ByteArray} (hbase : 1 ≤ b.baseSize)
    (hcapacity : b.capacity = b.baseSize * b.root.length) (hposition : b.position ≤ b.capacity)
    (size : ℕ) : MakesRoom size b (addCapacity junk size b) := by
  have hcounted : Counted b := ⟨⟨hbase, hcapacity⟩, hposition⟩
  have hfits := le_growth size hcounted
  rw [addCapacity_eq junk size hcounted]
  refine ⟨rfl, rfl, ?_, ?_, List.prefix_append _ _, ?_⟩
  · show size ≤ b.baseSize * (b.root.length + growth b size) - b.position
    omega
  · show b.baseSize * (b.root.length + growth b size) = b.baseSize * (grown junk b size).length
    rw [length_grown]
  · intro hroom
    have hnone : growth b size = 0 := if_pos hroom
    show b.root ++ freshBlocks junk b.baseSize b.root.length (growth b size) = b.root
    rw [hnone, freshBlocks, List.range'_zero, List.map_nil, List.append_nil]

/-- Two blocks of four bytes, with the position in the second one. -/
def halfRead : ByteArray :=
  { ofBaseSize junk 4 with
    position := 5
    capacity := 8
    size := 6
    root := [Node.alloc (junk 0) 4, Node.alloc (junk 1) 4]
    curr := some 1 }

/-- Ten bytes, of which three fit: the remainder 2 does not ask for a third block. -/
theorem addCapacity_makesRoom_halfRead :
    MakesRoom 10 (halfRead fun _ _ ↦ 0) (addCapacity (fun _ _ ↦ 0) 10 (halfRead fun _ _ ↦ 0)) :=
  addCapacity_makesRoom _ (by decide) (by decide) (by decide) 10

/-! ### How many blocks -/

/-- So many more blocks make room for `size` bytes. -/
def Suffices (b : ByteArray) (size count : ℕ) : Prop :=
  size ≤ b.getCapacity + b.baseSize * count

theorem suffices_growth {b : ByteArray} (hcounted : Counted b) (size : ℕ) :
    Suffices b size (growth b size) := by
  have hfits := le_growth size hcounted
  have hposition := hcounted.position_le
  rw [Nat.mul_add, ← hcounted.capacity_eq] at hfits
  rw [Suffices, getCapacity]
  omega

/-- Assumes: a capacity that counts the blocks. No fewer blocks would do, unless the free space is
too small and still larger than the remainder of `size` by a block or more: the quotient then counts
a block that is there already. -/
theorem growth_isLeast_iff {b : ByteArray} (hcounted : Counted b) (size : ℕ) :
    IsLeast {count | Suffices b size count} (growth b size) ↔
      size ≤ b.getCapacity ∨ b.getCapacity < b.baseSize + size % b.baseSize := by
  have hsplit := Nat.div_add_mod size b.baseSize
  rw [IsLeast, and_iff_right (show growth b size ∈ {count | Suffices b size count} from
    suffices_growth hcounted size)]
  by_cases hroom : size ≤ b.getCapacity
  · have hnone : growth b size = 0 := if_pos hroom
    exact iff_of_true (fun count _ ↦ hnone ▸ Nat.zero_le count) (Or.inl hroom)
  · have hgrowth : growth b size =
        size / b.baseSize + if b.getCapacity < size % b.baseSize then 1 else 0 := if_neg hroom
    rw [or_iff_right hroom]
    constructor
    · intro hleast
      by_contra hlarge
      have hquotient : growth b size = size / b.baseSize := by
        rw [hgrowth, if_neg (by omega), Nat.add_zero]
      have hpos : size / b.baseSize ≠ 0 := by
        intro hzero
        rw [hzero, Nat.mul_zero] at hsplit
        omega
      have hfewer : Suffices b size (size / b.baseSize - 1) := by
        rw [Suffices, Nat.mul_sub, Nat.mul_one]
        omega
      have hle : growth b size ≤ size / b.baseSize - 1 := hleast hfewer
      omega
    · intro hsmall count hcount
      by_contra hfewer
      have hroomy : size ≤ b.getCapacity + b.baseSize * count := hcount
      rw [hgrowth] at hfewer
      split_ifs at hfewer with hmod
      · have hle := Nat.mul_le_mul_left b.baseSize (show count ≤ size / b.baseSize by omega)
        omega
      · have hle := Nat.mul_le_mul_left b.baseSize (show count + 1 ≤ size / b.baseSize by omega)
        rw [Nat.mul_add, Nat.mul_one] at hle
        omega

/-! ### In machine words -/

/-- `addCapacity(size)` on the members of type `size_t`: the number of turns its loop makes, and the
capacity after them. -/
def growWords (baseSize position capacity size : UInt64) : UInt64 × UInt64 :=
  let oldCap := capacity - position
  if size = 0 ∨ size ≤ oldCap then (0, capacity)
  else
    let count := size / baseSize + if oldCap < size % baseSize then 1 else 0
    (count, (· + baseSize)^[count.toNat] capacity)

theorem toNat_iterate_add (step : UInt64) (count : ℕ) :
    ∀ start : UInt64,
      ((· + step)^[count] start).toNat = (start.toNat + count * step.toNat) % 2 ^ 64 := by
  induction count with
  | zero =>
    intro start
    rw [Function.iterate_zero_apply, Nat.zero_mul, Nat.add_zero, Nat.mod_eq_of_lt start.toNat_lt]
  | succ count ih =>
    intro start
    rw [Function.iterate_succ_apply, ih, UInt64.toNat_add, Nat.mod_add_mod, Nat.succ_mul]
    congr 1
    omega

/-- The sum that counts the new blocks does not wrap: where 1 is added there is a remainder, so the
divisor is not 1. -/
theorem toNat_count (oldCap size baseSize : UInt64) :
    (size / baseSize + if oldCap < size % baseSize then 1 else 0).toNat =
      size.toNat / baseSize.toNat +
        if oldCap.toNat < size.toNat % baseSize.toNat then 1 else 0 := by
  by_cases hmod : oldCap < size % baseSize
  · have hmodNat : oldCap.toNat < size.toNat % baseSize.toNat := by
      rwa [UInt64.lt_iff_toNat_lt, UInt64.toNat_mod] at hmod
    have hbase : baseSize.toNat ≠ 1 := by
      intro hone
      rw [hone, Nat.mod_one] at hmodNat
      exact Nat.not_lt_zero _ hmodNat
    have hquotient : size.toNat / baseSize.toNat ≤ size.toNat / 2 := by
      by_cases hzero : baseSize.toNat = 0
      · rw [hzero, Nat.div_zero]
        exact Nat.zero_le _
      · exact Nat.div_le_div_left (by omega) (by omega)
    have hsize := size.toNat_lt
    rw [if_pos hmod, if_pos hmodNat, UInt64.toNat_add, UInt64.toNat_div, UInt64.toNat_one]
    exact Nat.mod_eq_of_lt (by omega)
  · have hmodNat : ¬ oldCap.toNat < size.toNat % baseSize.toNat := by
      rwa [UInt64.lt_iff_toNat_lt, UInt64.toNat_mod] at hmod
    rw [if_neg hmod, if_neg hmodNat, UInt64.add_zero, UInt64.toNat_div, Nat.add_zero]

/-- Assumes: a capacity that counts the blocks, and members of the same values. The count of new
blocks is the same for every size, and so is the capacity in 64 bits. -/
theorem growWords_eq {b : ByteArray} (hcounted : Counted b) {baseSize position capacity : UInt64}
    (hbase : baseSize.toNat = b.baseSize) (hposition : position.toNat = b.position)
    (hcapacity : capacity.toNat = b.capacity) (size : UInt64) :
    (growWords baseSize position capacity size).1.toNat = growth b size.toNat ∧
      (growWords baseSize position capacity size).2.toNat =
        (addCapacity junk size.toNat b).capacity % 2 ^ 64 := by
  have hle : position ≤ capacity := by
    rw [UInt64.le_iff_toNat_le, hposition, hcapacity]
    exact hcounted.position_le
  have hold : (capacity - position).toNat = b.getCapacity := by
    rw [UInt64.toNat_sub_of_le _ _ hle, hcapacity, hposition, getCapacity]
  have hgrown : (addCapacity junk size.toNat b).capacity =
      capacity.toNat + growth b size.toNat * baseSize.toNat := by
    rw [addCapacity_eq junk size.toNat hcounted, hcapacity, hbase, hcounted.capacity_eq,
      Nat.mul_comm (growth b size.toNat), ← Nat.mul_add]
  have hcount : (growWords baseSize position capacity size).1.toNat = growth b size.toNat := by
    simp only [growWords]
    by_cases hnone : size = 0 ∨ size ≤ capacity - position
    · have hroom : size.toNat ≤ b.getCapacity := by
        rcases hnone with rfl | hroom
        · exact Nat.zero_le _
        · rwa [UInt64.le_iff_toNat_le, hold] at hroom
      rw [if_pos hnone, growth, if_pos hroom]
      rfl
    · have hshort : ¬ size.toNat ≤ b.getCapacity := by
        rw [← hold, ← UInt64.le_iff_toNat_le]
        exact fun hroom ↦ hnone (Or.inr hroom)
      rw [if_neg hnone, toNat_count, growth, if_neg hshort, hold, hbase]
  have hturns : (growWords baseSize position capacity size).2 =
      (· + baseSize)^[(growWords baseSize position capacity size).1.toNat] capacity := by
    simp only [growWords]
    split_ifs <;> rfl
  rw [hturns, toNat_iterate_add, hcount, hgrown]
  exact ⟨rfl, rfl⟩

end Cczoe.Net.ByteArray
