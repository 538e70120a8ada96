import Cczoe.Foundations.ByteNumerals
import Mathlib.Data.List.GetD
import Mathlib.Data.UInt
import Mathlib.Order.BooleanAlgebra.Basic

/-!
# Bit strings and their first bits

A bit string of a given width, first bit first, in the Boolean algebra of functions. `firstBits p`
has exactly its first `p` bits set. `networkPart p` keeps the first `p` bits of a string and clears
the others, `broadcastOf p` keeps them and sets the others. Taking the network part for `q` and then
for `p` is taking it for the smaller of the two (`networkPart_networkPart`).

`bitAt` reads a list of bytes as a bit string, the high bit of a byte first. Bytes of one length are
determined by their bits (`eq_of_bitAt_eq`), and `bitAt_littleEndian` and
`bitAt_reverse_littleEndian` are the bits of a number laid out in bytes.
-/

set_option autoImplicit false
set_option relaxedAutoImplicit false

namespace Cczoe.Foundations.PrefixBits

open ByteNumerals

/-! ### Masks -/

/-- A bit string, first bit first. -/
abbrev Bits (width : ℕ) := Fin width → Bool

section Masks

variable {width : ℕ}

/-- The string with exactly its first `p` bits set. -/
def firstBits (p : ℕ) : Bits width := fun i ↦ decide (i.val < p)

/-- The first `p` bits of a string, the others cleared. -/
def networkPart (p : ℕ) (a : Bits width) : Bits width := a ⊓ firstBits p

/-- The first `p` bits of a string, the others set. -/
def broadcastOf (p : ℕ) (a : Bits width) : Bits width := a ⊔ (firstBits p)ᶜ

theorem firstBits_inf (p q : ℕ) :
    (firstBits p ⊓ firstBits q : Bits width) = firstBits (min p q) := by
  funext i
  change (decide (i.val < p) && decide (i.val < q)) = decide (i.val < min p q)
  rw [← Bool.decide_and]
  exact decide_eq_decide.mpr lt_min_iff.symm

theorem networkPart_networkPart (p q : ℕ) (a : Bits width) :
    networkPart p (networkPart q a) = networkPart (min p q) a := by
  rw [networkPart, networkPart, networkPart, inf_assoc, firstBits_inf, min_comm]

/-- Setting the first bits in place of the others gives the same string exactly when all bits of the
string were set already. -/
theorem sup_firstBits_eq_broadcastOf_iff (p : ℕ) (a : Bits width) :
    a ⊔ firstBits p = broadcastOf p a ↔ a = ⊤ := by
  constructor
  · intro hsame
    funext i
    have hbit : (a i || decide (i.val < p)) = (a i || !decide (i.val < p)) := congrFun hsame i
    change a i = true
    by_cases hset : a i = true
    · exact hset
    · rw [Bool.eq_false_of_not_eq_true hset] at hbit
      simp at hbit
  · rintro rfl
    rw [broadcastOf, top_sup_eq, top_sup_eq]

end Masks

/-! ### Bits of bytes -/

/-- Bit `i` of a list of bytes, the high bit of the first byte first. -/
def bitAt (bytes : List UInt8) (i : ℕ) : Bool := (bytes.getD (i / 8) 0).toBitVec.getMsbD (i % 8)

theorem bitAt_cons_of_lt (byte : UInt8) (rest : List UInt8) {i : ℕ} (hi : i < 8) :
    bitAt (byte :: rest) i = byte.toBitVec.getMsbD i := by
  rw [bitAt, Nat.div_eq_of_lt hi, Nat.mod_eq_of_lt hi, List.getD_cons_zero]

theorem bitAt_cons_of_le (byte : UInt8) (rest : List UInt8) {i : ℕ} (hi : 8 ≤ i) :
    bitAt (byte :: rest) i = bitAt rest (i - 8) := by
  have hdiv : i / 8 = (i - 8) / 8 + 1 := by omega
  have hmod : i % 8 = (i - 8) % 8 := by omega
  rw [bitAt, bitAt, hdiv, hmod, List.getD_cons_succ]

theorem bitAt_append_of_lt (first second : List UInt8) {i : ℕ} (hi : i < 8 * first.length) :
    bitAt (first ++ second) i = bitAt first i := by
  rw [bitAt, bitAt, List.getD_append _ _ _ _ (by omega)]

theorem bitAt_append_of_le (first second : List UInt8) {i : ℕ} (hi : 8 * first.length ≤ i) :
    bitAt (first ++ second) i = bitAt second (i - 8 * first.length) := by
  have hdiv : i / 8 - first.length = (i - 8 * first.length) / 8 := by omega
  have hmod : i % 8 = (i - 8 * first.length) % 8 := by omega
  rw [bitAt, bitAt, List.getD_append_right _ _ _ _ (by omega), hdiv, hmod]

/-- Bytes of one length with the same bits are the same. -/
theorem eq_of_bitAt_eq (first : List UInt8) :
    ∀ second : List UInt8, first.length = second.length →
      (∀ i < 8 * first.length, bitAt first i = bitAt second i) → first = second := by
  induction first with
  | nil => exact fun second hlength _ ↦ (List.length_eq_zero_iff.mp hlength.symm).symm
  | cons byte rest ih =>
    intro second hlength hbits
    cases second with
    | nil => exact absurd hlength (Nat.succ_ne_zero _)
    | cons other others =>
      rw [List.length_cons] at hbits
      have hbyte : byte.toBitVec = other.toBitVec := by
        apply BitVec.eq_of_getMsbD_eq
        intro i hi
        rw [← bitAt_cons_of_lt byte rest hi, ← bitAt_cons_of_lt other others hi]
        exact hbits i (by omega)
      have hrest : rest = others := by
        apply ih others (Nat.succ_inj.mp hlength)
        intro i hi
        have hbit := hbits (i + 8) (by omega)
        rwa [bitAt_cons_of_le _ _ (by omega), bitAt_cons_of_le _ _ (by omega),
          Nat.add_sub_cancel] at hbit
      rw [hrest, UInt8.eq_of_toBitVec_eq hbyte]

/-- The bits of the low byte of a number. -/
theorem getMsbD_ofNat (value : ℕ) {i : ℕ} (hi : i < 8) :
    (UInt8.ofNat value).toBitVec.getMsbD i = value.testBit (7 - i) := by
  have hbyte : (UInt8.ofNat value).toBitVec = BitVec.ofNat 8 value := rfl
  rw [hbyte, BitVec.getMsbD, BitVec.getLsbD_ofNat]
  simp [hi, show 7 - i < 8 by omega]

theorem testBit_div_256 (value i : ℕ) : (value / 256).testBit i = value.testBit (i + 8) := by
  have hpow : (256 : ℕ) = 2 ^ 8 := rfl
  rw [hpow, Nat.testBit_div_two_pow]

/-- The bits of a number laid out in bytes, least significant byte first. -/
theorem bitAt_littleEndian (count : ℕ) :
    ∀ value i : ℕ, i < 8 * count →
      bitAt (littleEndian count value) i = value.testBit (8 * (i / 8) + (7 - i % 8)) := by
  induction count with
  | zero => exact fun _ _ hi ↦ absurd hi (Nat.not_lt_zero _)
  | succ count ih =>
    intro value i hi
    rw [littleEndian]
    by_cases hfirst : i < 8
    · rw [bitAt_cons_of_lt _ _ hfirst, getMsbD_ofNat value hfirst, Nat.div_eq_of_lt hfirst,
        Nat.mod_eq_of_lt hfirst, Nat.mul_zero, Nat.zero_add]
    · have hplace : 8 * ((i - 8) / 8) + (7 - (i - 8) % 8) + 8 = 8 * (i / 8) + (7 - i % 8) := by
        omega
      rw [bitAt_cons_of_le _ _ (by omega), ih _ _ (by omega), testBit_div_256, hplace]

/-- The bits of a number laid out in bytes, most significant byte first. -/
theorem bitAt_reverse_littleEndian (count : ℕ) :
    ∀ value i : ℕ, i < 8 * count →
      bitAt (littleEndian count value).reverse i = value.testBit (8 * count - 1 - i) := by
  induction count with
  | zero => exact fun _ _ hi ↦ absurd hi (Nat.not_lt_zero _)
  | succ count ih =>
    intro value i hi
    have hlength : (littleEndian count (value / 256)).reverse.length = count := by
      rw [List.length_reverse, length_littleEndian]
    rw [littleEndian, List.reverse_cons]
    by_cases hlast : i < 8 * count
    · have hplace : 8 * count - 1 - i + 8 = 8 * (count + 1) - 1 - i := by omega
      rw [bitAt_append_of_lt _ _ (by omega), ih _ _ hlast, testBit_div_256, hplace]
    · have hplace : 7 - (i - 8 * count) = 8 * (count + 1) - 1 - i := by omega
      rw [bitAt_append_of_le _ _ (by omega), hlength, bitAt_cons_of_lt _ _ (by omega),
        getMsbD_ofNat value (by omega), hplace]

end Cczoe.Foundations.PrefixBits
