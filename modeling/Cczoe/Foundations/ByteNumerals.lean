import Mathlib.Data.Nat.Bits
import Mathlib.Tactic.Ring

/-!
# Numbers as bytes

Two positional notations with byte digits. `littleEndian count value` are the `count` low bytes of a
number, least significant first, and `ofLittleEndian` reads them back. `base128 value` are the
seven-bit groups of a number, least significant first, with the high bit set on every byte but the
last.
-/

set_option autoImplicit false
set_option relaxedAutoImplicit false

namespace Cczoe.Foundations.ByteNumerals

/-! ### Fixed width -/

/-- The `count` low bytes of a number, least significant first. -/
def littleEndian : ℕ → ℕ → List UInt8
  | 0, _ => []
  | count + 1, value => UInt8.ofNat value :: littleEndian count (value / 256)

/-- The number with the given bytes, least significant first. -/
def ofLittleEndian : List UInt8 → ℕ
  | [] => 0
  | byte :: rest => byte.toNat + 256 * ofLittleEndian rest

theorem length_littleEndian (count value : ℕ) : (littleEndian count value).length = count := by
  induction count generalizing value with
  | zero => rfl
  | succ count ih => rw [littleEndian, List.length_cons, ih]

theorem ofLittleEndian_littleEndian (count value : ℕ) :
    ofLittleEndian (littleEndian count value) = value % 256 ^ count := by
  induction count generalizing value with
  | zero => rw [littleEndian, ofLittleEndian, pow_zero, Nat.mod_one]
  | succ count ih =>
    have hlow : (UInt8.ofNat value).toNat = value % 256 := UInt8.toNat_ofNat'
    have hpow : 256 ^ (count + 1) = 256 * 256 ^ count := pow_succ' 256 count
    rw [littleEndian, ofLittleEndian, ih, hlow, hpow, Nat.mod_mul]

theorem ofLittleEndian_lt (bytes : List UInt8) : ofLittleEndian bytes < 256 ^ bytes.length := by
  induction bytes with
  | nil => exact Nat.one_pos
  | cons byte rest ih =>
    have hbyte : byte.toNat < 256 := byte.toNat_lt
    rw [ofLittleEndian, List.length_cons, pow_succ]
    omega

theorem littleEndian_ofLittleEndian (bytes : List UInt8) :
    littleEndian bytes.length (ofLittleEndian bytes) = bytes := by
  induction bytes with
  | nil => rfl
  | cons byte rest ih =>
    have hbyte : byte.toNat < 256 := byte.toNat_lt
    have hdiv : (byte.toNat + 256 * ofLittleEndian rest) / 256 = ofLittleEndian rest := by omega
    have hlow : UInt8.ofNat (byte.toNat + 256 * ofLittleEndian rest) = byte := by
      apply UInt8.toNat_inj.mp
      rw [UInt8.toNat_ofNat']
      omega
    rw [List.length_cons, ofLittleEndian, littleEndian, hdiv, hlow, ih]

/-! ### Seven-bit groups -/

/-- The seven-bit groups of a number, least significant first. -/
def base128 (value : ℕ) : List UInt8 :=
  if value < 128 then [UInt8.ofNat value]
  else UInt8.ofNat (value % 128 + 128) :: base128 (value / 128)
termination_by value
decreasing_by omega

theorem base128_of_lt {value : ℕ} (hsmall : value < 128) : base128 value = [UInt8.ofNat value] := by
  rw [base128, if_pos hsmall]

theorem base128_of_le {value : ℕ} (hlarge : 128 ≤ value) :
    base128 value = UInt8.ofNat (value % 128 + 128) :: base128 (value / 128) := by
  rw [base128, if_neg (by omega)]

end Cczoe.Foundations.ByteNumerals
