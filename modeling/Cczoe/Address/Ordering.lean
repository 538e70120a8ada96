import Mathlib.Data.UInt
import Mathlib.Data.List.Lex

/-!
# The order of addresses in `address.cpp`

`Address::operator<` compares the common part of two addresses with `memcmp` and breaks a tie by
length. What it reads of an address object are the first `getAddrLen()` bytes behind `getAddr()`,
which are fewer than the object has for a `UnixAddress`.

On these byte strings `operator<` is the lexicographic order and `operator==` is equality
(`lt_iff`, `eq_iff`), so `operator<` is a strict total order that agrees with `operator==`.
-/

set_option autoImplicit false
set_option relaxedAutoImplicit false

namespace Cczoe.Addresses

/-- An object of a class derived from `Address`: the bytes behind `getAddr()`, and `getAddrLen()`,
which does not reach beyond them. -/
structure Address where
  getAddr : List UInt8
  getAddrLen : ℕ
  inside : getAddrLen ≤ getAddr.length

/-- `memcmp`: the sign of the first difference among `n` bytes, taken as `unsigned char`. The last
branch, with fewer bytes than `n`, is not reached. -/
def memcmp : ℕ → List UInt8 → List UInt8 → ℤ
  | 0, _, _ => 0
  | n + 1, x :: lhs, y :: rhs => if x = y then memcmp n lhs rhs else (x.toNat : ℤ) - y.toNat
  | _ + 1, _, _ => 0

namespace Address

/-- The byte string that an address stands for. -/
def bytes (addr : Address) : List UInt8 := addr.getAddr.take addr.getAddrLen

/-- `operator<`. -/
def lt (self rhs : Address) : Bool :=
  let minLen := min self.getAddrLen rhs.getAddrLen
  let result := memcmp minLen self.getAddr rhs.getAddr
  if result < 0 then true
  else if 0 < result then false
  else if self.getAddrLen < rhs.getAddrLen then true
  else false

/-- `operator==`. -/
def eq (self rhs : Address) : Bool :=
  self.getAddrLen == rhs.getAddrLen && memcmp self.getAddrLen self.getAddr rhs.getAddr == 0

/-- `operator!=`. -/
def ne (self rhs : Address) : Bool := !self.eq rhs

theorem length_bytes (addr : Address) : addr.bytes.length = addr.getAddrLen := by
  rw [bytes, List.length_take, Nat.min_eq_left addr.inside]

end Address

/-! ### Comparing memory -/

/-- `memcmp` looks at the first `n` bytes only. -/
theorem memcmp_take (n : ℕ) :
    ∀ (left right : ℕ) (lhs rhs : List UInt8), n ≤ left → n ≤ right →
      memcmp n (lhs.take left) (rhs.take right) = memcmp n lhs rhs := by
  induction n with
  | zero => exact fun _ _ _ _ _ _ ↦ rfl
  | succ n ih =>
    intro left right lhs rhs hleft hright
    obtain ⟨left, rfl⟩ := Nat.exists_eq_add_of_le' (show 1 ≤ left by omega)
    obtain ⟨right, rfl⟩ := Nat.exists_eq_add_of_le' (show 1 ≤ right by omega)
    cases lhs with
    | nil => simp [memcmp]
    | cons x lhs =>
      cases rhs with
      | nil => simp [memcmp]
      | cons y rhs =>
        simp only [List.take_succ_cons, memcmp]
        rw [ih left right lhs rhs (by omega) (by omega)]

/-- The comparison of the common part and then of the lengths is the lexicographic order. -/
theorem memcmp_min_lt_iff (lhs : List UInt8) :
    ∀ rhs : List UInt8,
      (memcmp (min lhs.length rhs.length) lhs rhs < 0 ∨
        memcmp (min lhs.length rhs.length) lhs rhs = 0 ∧ lhs.length < rhs.length) ↔
      lhs < rhs := by
  induction lhs with
  | nil =>
    intro rhs
    cases rhs with
    | nil => simp [memcmp]
    | cons y rhs => simp [memcmp]
  | cons x lhs ih =>
    intro rhs
    cases rhs with
    | nil => simp [memcmp]
    | cons y rhs =>
      have hmin : min (x :: lhs).length (y :: rhs).length = min lhs.length rhs.length + 1 :=
        Nat.succ_min_succ lhs.length rhs.length
      have hlength : (x :: lhs).length < (y :: rhs).length ↔ lhs.length < rhs.length :=
        Nat.succ_lt_succ_iff
      rw [hmin, hlength, memcmp, List.cons_lt_cons_iff, ← ih rhs, UInt8.lt_iff_toNat_lt]
      by_cases hsame : x = y
      · rw [if_pos hsame, hsame]
        simp
      · have hdiffer : x.toNat ≠ y.toNat := fun heq ↦ hsame (UInt8.toNat_inj.mp heq)
        rw [if_neg hsame]
        simp only [hsame, false_and, or_false]
        omega

/-- Assumes: `n` bytes on both sides. `memcmp` is zero on equal bytes only. -/
theorem memcmp_eq_zero_iff (n : ℕ) :
    ∀ lhs rhs : List UInt8, lhs.length = n → rhs.length = n →
      (memcmp n lhs rhs = 0 ↔ lhs = rhs) := by
  induction n with
  | zero =>
    intro lhs rhs hleft hright
    rw [List.length_eq_zero_iff.mp hleft, List.length_eq_zero_iff.mp hright]
    exact iff_of_true rfl rfl
  | succ n ih =>
    intro lhs rhs hleft hright
    cases lhs with
    | nil => exact absurd hleft (Nat.succ_ne_zero n).symm
    | cons x lhs =>
      cases rhs with
      | nil => exact absurd hright (Nat.succ_ne_zero n).symm
      | cons y rhs =>
        rw [memcmp, List.cons.injEq]
        by_cases hsame : x = y
        · rw [if_pos hsame, ih lhs rhs (Nat.succ_inj.mp hleft) (Nat.succ_inj.mp hright)]
          exact (and_iff_right hsame).symm
        · have hdiffer : x.toNat ≠ y.toNat := fun heq ↦ hsame (UInt8.toNat_inj.mp heq)
          rw [if_neg hsame]
          exact iff_of_false (by omega) fun hboth ↦ hsame hboth.1

/-! ### The order -/

namespace Address

/-- `operator<` is the lexicographic order of the byte strings. -/
theorem lt_iff (self rhs : Address) : self.lt rhs = true ↔ self.bytes < rhs.bytes := by
  rw [← memcmp_min_lt_iff, length_bytes, length_bytes, bytes, bytes,
    memcmp_take _ _ _ _ _ (Nat.min_le_left _ _) (Nat.min_le_right _ _), lt]
  generalize memcmp (min self.getAddrLen rhs.getAddrLen) self.getAddr rhs.getAddr = result
  rcases lt_trichotomy result 0 with hneg | hzero | hpos
  · simp [hneg]
  · simp [hzero]
  · simp [hpos, not_lt_of_gt hpos, ne_of_gt hpos]

/-- `operator==` is equality of the byte strings. -/
theorem eq_iff (self rhs : Address) : self.eq rhs = true ↔ self.bytes = rhs.bytes := by
  rw [eq, Bool.and_eq_true, beq_iff_eq, beq_iff_eq]
  by_cases hlength : self.getAddrLen = rhs.getAddrLen
  · rw [← memcmp_eq_zero_iff self.getAddrLen self.bytes rhs.bytes self.length_bytes
        (rhs.length_bytes.trans hlength.symm),
      bytes, bytes, memcmp_take _ _ _ _ _ (le_refl _) (le_of_eq hlength)]
    exact and_iff_right hlength
  · refine iff_of_false (fun hboth ↦ hlength hboth.1) fun hsame ↦ hlength ?_
    rw [← self.length_bytes, hsame, rhs.length_bytes]

/-- `operator!=` holds of the addresses that `operator==` tells apart. -/
theorem ne_iff (self rhs : Address) : self.ne rhs = true ↔ self.bytes ≠ rhs.bytes := by
  rw [ne, Bool.not_eq_true', ← Bool.not_eq_true, eq_iff]

/-- Exactly one of three statements holds. -/
def ExactlyOne (first second third : Prop) : Prop :=
  first ∧ ¬ second ∧ ¬ third ∨ ¬ first ∧ second ∧ ¬ third ∨ ¬ first ∧ ¬ second ∧ third

theorem bytes_trichotomy (lhs rhs : List UInt8) :
    ExactlyOne (lhs < rhs) (lhs = rhs) (rhs < lhs) := by
  by_cases hless : lhs < rhs
  · refine Or.inl ⟨hless, fun hsame ↦ ?_, List.lt_asymm hless⟩
    rw [hsame] at hless
    exact List.lt_irrefl rhs hless
  · by_cases hmore : rhs < lhs
    · refine Or.inr (Or.inr ⟨hless, fun hsame ↦ ?_, hmore⟩)
      rw [hsame] at hmore
      exact List.lt_irrefl rhs hmore
    · exact Or.inr (Or.inl ⟨hless, List.le_antisymm hmore hless, hmore⟩)

/-- `operator<` is a strict total order with `operator==` as its equality, for addresses of any
lengths. -/
theorem lt_strict_total (a b c : Address) :
    ExactlyOne (a.lt b = true) (a.eq b = true) (b.lt a = true) ∧
      (a.lt b = true → b.lt c = true → a.lt c = true) := by
  rw [lt_iff, lt_iff, lt_iff, lt_iff, eq_iff]
  exact ⟨bytes_trichotomy a.bytes b.bytes, List.lt_trans⟩

/-- Three paths of three lengths, one the beginning of the next. -/
theorem lt_strict_total_of_three_lengths :
    (⟨[1, 0, 47, 97, 0, 0], 4, by decide⟩ : Address).lt ⟨[1, 0, 47, 98, 0, 0], 6, by decide⟩ =
      true :=
  (lt_strict_total _ ⟨[1, 0, 47, 97, 98, 0], 5, by decide⟩ _).2 (by decide) (by decide)

end Address

end Cczoe.Addresses
