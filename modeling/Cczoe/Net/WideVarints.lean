import Cczoe.Net.TypedRoundTrip

/-!
# Varints of 64 bits

`writeVarints` and `readVarints` write and read lists of values, of any width. `writeInt64` and
`writeUint64` emit a value in up to ten groups of seven bits. `readInt64` and `readUint64` share the
bound `i < 32` of the 32-bit reader, so their loop has five turns. A code below `2 ^ 35` fits five
groups and comes back (`reads_readVarint`). From a larger one the loop takes five groups, returns
the low 35 bits, which are another value, and leaves the other groups to the next read
(`readVarint_of_large`).

`wideRoundTrip_iff` is the exact condition for a list of values to be read back, in a block with
room for all bytes.
-/

set_option autoImplicit false
set_option relaxedAutoImplicit false

namespace Cczoe.Net

open Foundations.BlockStorage Foundations.ByteNumerals

/-! ### Codes -/

/-- `DecodeZigzag` in numbers. Assumes: at least two bits. -/
theorem toNat_decodeZigzag {w : ℕ} (hw : 1 < w) (v : BitVec w) :
    (decodeZigzag v).toNat =
      if v.toNat % 2 = 0 then v.toNat / 2 else 2 ^ w - 1 - v.toNat / 2 := by
  by_cases heven : v.toNat % 2 = 0
  · rw [decodeZigzag_of_even hw heven, if_pos heven, BitVec.toNat_ushiftRight,
      Nat.shiftRight_eq_div_pow, pow_one]
  · rw [decodeZigzag_of_odd hw (by omega), if_neg heven, BitVec.toNat_not,
      BitVec.toNat_ushiftRight, Nat.shiftRight_eq_div_pow, pow_one]

/-- Assumes: at least two bits. No two codes decode to one number. -/
theorem decodeZigzag_injective {w : ℕ} (hw : 1 < w) :
    Function.Injective (decodeZigzag (w := w)) := by
  intro first second hsame
  have hnumbers := congrArg BitVec.toNat hsame
  rw [toNat_decodeZigzag hw, toNat_decodeZigzag hw] at hnumbers
  have hfirst := first.isLt
  have hsecond := second.isLt
  have hhalf : 2 ^ w = 2 * 2 ^ (w - 1) := by
    rw [← pow_succ', Nat.sub_add_cancel (by omega)]
  apply BitVec.eq_of_toNat_eq
  split_ifs at hnumbers <;> omega

/-- A number below `128 ^ (count + 1)` is written in at most `count + 1` groups. -/
theorem length_base128_le (count : ℕ) :
    ∀ value < 128 ^ (count + 1), (base128 value).length ≤ count + 1 := by
  induction count with
  | zero =>
    intro value hvalue
    rw [base128_of_lt (by omega), List.length_singleton]
  | succ count ih =>
    intro value hvalue
    by_cases hsmall : value < 128
    · rw [base128_of_lt hsmall, List.length_singleton]
      omega
    · have hrest := ih (value / 128) (Nat.div_lt_of_lt_mul (by rwa [← pow_succ']))
      rw [base128_of_le (by omega), List.length_cons]
      omega

/-- A value of 64 bits is written in at most ten bytes. -/
theorem length_varintBytes_le (value : BitVec 64) : (varintBytes value).length ≤ 10 := by
  rw [varintBytes_eq (by omega)]
  exact length_base128_le 9 value.toNat (by have hvalue := value.isLt; omega)

namespace ByteArray

variable (junk : ℕ → ℕ → UInt8) (host : Endian)

/-! ### Lists of values -/

/-- The values written in order. -/
def writeVarints {w : ℕ} (sign : Signedness) : List (BitVec w) → ByteArrayM Unit
  | [] => pure ()
  | value :: rest => do
    writeVarint junk sign value
    writeVarints sign rest

/-- That many values read in order. -/
def readVarints {w : ℕ} (sign : Signedness) : ℕ → ByteArrayM (List (BitVec w))
  | 0 => pure []
  | count + 1 => do
    let value ← readVarint host sign
    let values ← readVarints sign count
    return value :: values

theorem appends_writeVarints (baseSize : ℕ) (endian : Endian) {w : ℕ} (sign : Signedness)
    (values : List (BitVec w)) :
    Appends baseSize endian (writeVarints junk sign values)
      (values.flatMap (encodedBytes sign)) := by
  induction values with
  | nil => exact appends_pure baseSize endian
  | cons value rest ih =>
    rw [List.flatMap_cons]
    exact (appends_write junk baseSize endian (encodedBytes sign value)).bind ih

/-- Assumes: values whose codes fit the five turns of the readers. They are read back one after the
other. -/
theorem reads_readVarints (endian : Endian) {w : ℕ} (hw : 8 ≤ w) (sign : Signedness)
    {values : List (BitVec w)}
    (hcodes : ∀ value ∈ values, (varintCode sign value).toNat < 128 ^ 5) :
    Reads endian (readVarints host sign values.length) (values.flatMap (encodedBytes sign))
      values := by
  induction values with
  | nil => exact reads_pure endian []
  | cons value rest ih =>
    rw [List.forall_mem_cons] at hcodes
    rw [List.flatMap_cons]
    apply (reads_readVarint host endian hw hcodes.1).bind
    rw [← List.append_nil (rest.flatMap _)]
    exact (ih hcodes.2).bind (reads_pure endian (value :: rest))

/-- A list that is read starts with the value that is read first. -/
theorem readVarints_cons {w : ℕ} {sign : Signedness} {b final : ByteArray} {value : BitVec w}
    {values : List (BitVec w)} {count : ℕ}
    (hread : readVarints host sign (count + 1) b = .ok (value :: values) final) :
    ∃ after, readVarint host sign b = .ok value after ∧
      readVarints host sign count after = .ok values final := by
  cases hfirst : (readVarint host sign : ByteArrayM (BitVec w)) b with
  | error fault after =>
    simp only [readVarints, bind, EStateM.bind, hfirst] at hread
    exact absurd hread (by simp)
  | ok first after =>
    rw [readVarints, bind_ok hfirst] at hread
    cases hrest : (readVarints host sign count : ByteArrayM (List (BitVec w))) after with
    | error fault stop =>
      simp only [bind, EStateM.bind, hrest] at hread
      exact absurd hread (by simp)
    | ok others stop =>
      rw [bind_ok hrest] at hread
      obtain ⟨⟨rfl, rfl⟩, rfl⟩ : (first = value ∧ others = values) ∧ stop = final := by
        simpa [pure, EStateM.pure] using hread
      exact ⟨after, rfl, hrest⟩

/-! ### The range of the 64-bit readers -/

/-- The value lies in the range of the reader, 35 bits of the code. -/
def FitsFiveGroups (sign : Signedness) (value : BitVec 64) : Prop :=
  match sign with
  | .signed => -2 ^ 34 ≤ value.toInt ∧ value.toInt < 2 ^ 34
  | .unsigned => value.toNat < 2 ^ 35

theorem varintValue_injective {w : ℕ} (hw : 1 < w) (sign : Signedness) :
    Function.Injective (varintValue (w := w) sign) := by
  cases sign with
  | signed => exact decodeZigzag_injective hw
  | unsigned => exact fun _ _ hsame ↦ hsame

theorem fitsFiveGroups_iff (sign : Signedness) (value : BitVec 64) :
    FitsFiveGroups sign value ↔ (varintCode sign value).toNat < 128 ^ 5 := by
  cases sign with
  | unsigned => exact Iff.rfl
  | signed =>
    have hlt := value.isLt
    rw [FitsFiveGroups, varintCode, BitVec.toInt_eq_toNat_cond]
    cases hsign : value.msb with
    | true =>
      have hlarge : 2 ^ 64 ≤ 2 * value.toNat := BitVec.msb_eq_true_iff_two_mul_ge.mp hsign
      rw [toNat_encodeZigzag_of_neg (by omega) hsign, if_neg (by omega)]
      omega
    | false =>
      have hsmall : 2 * value.toNat < 2 ^ 64 := BitVec.msb_eq_false_iff_two_mul_lt.mp hsign
      rw [toNat_encodeZigzag_of_nonneg (by omega) hsign, if_pos hsmall]
      omega

/-! ### Reading a value back -/

/-- Assumes: the groups of `value` come next, more of them than the loop has turns left, the bits
collected so far lie below `i`, and the bits of all turns fit. The loop of the varint readers puts
the low groups on top of the bits collected and leaves the others. -/
theorem Reading.readVarintLoop_truncates {w : ℕ} {endian : Endian} {rest : List UInt8}
    (rounds : ℕ) :
    ∀ (i value : ℕ) (b : ByteArray) (result : BitVec w),
      Reading b endian (base128 value ++ rest) → 128 ^ rounds ≤ value →
      result.toNat < 2 ^ i → i + 7 * rounds ≤ w →
      ∃ after, ByteArray.readVarintLoop host (List.range' i rounds 7) result b =
          .ok (BitVec.ofNat w (result.toNat + value % 128 ^ rounds * 2 ^ i)) after ∧
        Reading after endian (base128 (value / 128 ^ rounds) ++ rest) := by
  induction rounds with
  | zero =>
    intro i value b result hreading _ _ _
    refine ⟨b, ?_, by rwa [pow_zero, Nat.div_one]⟩
    rw [pow_zero, Nat.mod_one, Nat.zero_mul, Nat.add_zero, BitVec.ofNat_toNat, BitVec.setWidth_eq]
    rfl
  | succ rounds ih =>
    intro i value b result hreading hlong hlow hwidth
    have hpos : 0 < 128 ^ rounds := Nat.pow_pos (by omega)
    have hgroups : 128 ^ (rounds + 1) = 128 * 128 ^ rounds := pow_succ' 128 rounds
    have hbelow := low_group_lt hlow value
    have hfits : result.toNat + value % 128 * 2 ^ i < 2 ^ w :=
      hbelow.trans_le (Nat.pow_le_pow_right (by omega) (by omega))
    obtain ⟨middle, hturn, hmiddle⟩ := (feeds_reading host endian).readVarintLoop_more host hreading
      (by omega) hlow hfits (List.range' (i + 7) rounds 7)
    have hcollected : (BitVec.ofNat w (result.toNat + value % 128 * 2 ^ i)).toNat =
        result.toNat + value % 128 * 2 ^ i := toNat_numeral hfits
    obtain ⟨after, hloop, hafter⟩ := ih (i + 7) (value / 128) middle
      (BitVec.ofNat w (result.toNat + value % 128 * 2 ^ i)) hmiddle
      ((Nat.le_div_iff_mul_le (by omega)).mpr (by omega)) (by rwa [hcollected]) (by omega)
    have hsum : result.toNat + value % 128 ^ (rounds + 1) * 2 ^ i =
        result.toNat + value % 128 * 2 ^ i + value / 128 % 128 ^ rounds * 2 ^ (i + 7) := by
      rw [hgroups, Nat.mod_mul, pow_add]
      ring
    refine ⟨after, ?_, ?_⟩
    · rw [List.range'_succ, hturn, hloop, hcollected, hsum]
    · rwa [hgroups, ← Nat.div_div_eq_div_mul]

/-- Assumes: a value in the range of the reader. The reader returns the value whose bytes come
next. -/
theorem reads_readVarint_wide (endian : Endian) {sign : Signedness} {value : BitVec 64}
    (hfits : FitsFiveGroups sign value) :
    Reads endian (readVarint host sign) (encodedBytes sign value) value :=
  reads_readVarint host endian (by omega) ((fitsFiveGroups_iff sign value).mp hfits)

/-- Assumes: the groups of a value outside the range of the reader come next. The reader returns
another value. -/
theorem readVarint_of_large {b : ByteArray} {endian : Endian} {sign : Signedness}
    {value : BitVec 64} {rest : List UInt8}
    (hreading : Reading b endian (encodedBytes sign value ++ rest))
    (hlarge : ¬ FitsFiveGroups sign value) :
    ∃ other after, readVarint host sign b = .ok other after ∧ other ≠ value := by
  have hshifts : varintShifts = List.range' 0 5 7 := rfl
  have hcode : 128 ^ 5 ≤ (varintCode sign value).toNat :=
    Nat.le_of_not_lt fun hfits ↦ hlarge ((fitsFiveGroups_iff sign value).mpr hfits)
  rw [encodedBytes, varintBytes_eq (by omega)] at hreading
  obtain ⟨after, hloop, -⟩ := Reading.readVarintLoop_truncates host 5 0
    (varintCode sign value).toNat b 0#64 hreading hcode Nat.one_pos (by omega)
  rw [← hshifts, toNat_numeral (Nat.two_pow_pos 64), Nat.zero_add, pow_zero, Nat.mul_one] at hloop
  have hread : readVarintLoop host varintShifts (0 : BitVec 64) b =
      .ok (BitVec.ofNat 64 ((varintCode sign value).toNat % 128 ^ 5)) after := hloop
  refine ⟨varintValue sign (BitVec.ofNat 64 ((varintCode sign value).toNat % 128 ^ 5)), after, ?_,
    ?_⟩
  · rw [readVarint_eq, map_ok _ hread]
  · intro hsame
    -- the reader's code has 35 bits, so it is not the code of the value
    have hcodes :
        BitVec.ofNat 64 ((varintCode sign value).toNat % 128 ^ 5) = varintCode sign value :=
      varintValue_injective (by omega) sign
        (hsame.trans (varintValue_varintCode (by omega) sign value).symm)
    have hnumbers := congrArg BitVec.toNat hcodes
    rw [BitVec.toNat_ofNat] at hnumbers
    omega

/-- Assumes: the bytes of some values come next, and the same values are read. They lie in the range
of the reader. -/
theorem fitsFiveGroups_of_readVarints {endian : Endian} {sign : Signedness}
    (values : List (BitVec 64)) :
    ∀ (b final : ByteArray), Reading b endian (values.flatMap (encodedBytes sign)) →
      readVarints host sign values.length b = .ok values final →
      ∀ value ∈ values, FitsFiveGroups sign value := by
  induction values with
  | nil =>
    intro b final _ _ value hvalue
    exact absurd hvalue (List.not_mem_nil)
  | cons value rest ih =>
    intro b final hreading hread
    rw [List.flatMap_cons] at hreading
    obtain ⟨after, hfirst, hrest⟩ := readVarints_cons host hread
    have hfits : FitsFiveGroups sign value := by
      by_contra hlarge
      obtain ⟨other, stop, hother, hne⟩ := readVarint_of_large host hreading hlarge
      rw [hfirst] at hother
      obtain ⟨rfl, -⟩ : value = other ∧ after = stop := by simpa using hother
      exact hne rfl
    obtain ⟨stop, hvalue, hstop⟩ := reads_readVarint_wide host endian hfits b _ hreading
    rw [hfirst] at hvalue
    obtain ⟨-, rfl⟩ : value = value ∧ after = stop := by simpa using hvalue
    exact List.forall_mem_cons.mpr ⟨hfits, ih after final hstop hrest⟩

/-- Values written into a fresh array come back from `setPosition(0)` on, nothing stays readable,
and no value took more than ten bytes. -/
def WideRoundTrip (endian : Endian) (baseSize : ℕ) (sign : Signedness)
    (values : List (BitVec 64)) : Prop :=
  (∃ written atStart final,
    writeVarints junk sign values ((ofBaseSize junk baseSize).setEndian endian) = .ok () written ∧
    ByteArray.setPosition 0 written = .ok () atStart ∧
    readVarints host sign values.length atStart = .ok values final ∧
    final.getReadableSize = 0) ∧
  ∀ value ∈ values, (encodedBytes sign value).length ≤ 10

/-- Assumes: a block larger than all bytes written. The values are written, and after
`setPosition(0)` their bytes are what is readable. -/
theorem writeVarints_setPosition (endian : Endian) {baseSize : ℕ} {sign : Signedness}
    {values : List (BitVec 64)} (hroom : (values.flatMap (encodedBytes sign)).length < baseSize) :
    ∃ written atStart,
      writeVarints junk sign values ((ofBaseSize junk baseSize).setEndian endian) = .ok () written ∧
      ByteArray.setPosition 0 written = .ok () atStart ∧
      Reading atStart endian (values.flatMap (encodedBytes sign)) := by
  obtain ⟨written, hwrite, hfilling⟩ := appends_writeVarints junk baseSize endian sign values _ []
    (filling_ofBaseSize junk (by omega) endian) (by rwa [List.length_nil, Nat.zero_add])
  rw [List.nil_append] at hfilling
  obtain ⟨atStart, hposition, hreading⟩ := hfilling.setPosition hroom
  exact ⟨written, atStart, hwrite, hposition, hreading⟩

/-- Assumes: the round trip of a list of values in a block larger than their bytes. They lie in the
range of the reader. -/
theorem WideRoundTrip.fitsFiveGroups {endian : Endian} {baseSize : ℕ} {sign : Signedness}
    {values : List (BitVec 64)} (hroom : (values.flatMap (encodedBytes sign)).length < baseSize)
    (htrip : WideRoundTrip junk host endian baseSize sign values) :
    ∀ value ∈ values, FitsFiveGroups sign value := by
  obtain ⟨written, atStart, hwrite, hposition, hreading⟩ :=
    writeVarints_setPosition junk endian hroom
  obtain ⟨⟨other, start, final, hother, hstart, hread, -⟩, -⟩ := htrip
  rw [hwrite] at hother
  obtain rfl : written = other := by simpa using hother
  rw [hposition] at hstart
  obtain rfl : atStart = start := by simpa using hstart
  exact fitsFiveGroups_of_readVarints host values atStart final hreading hread

/-- Assumes: a block larger than all bytes written. The round trip of a list of 64-bit values works
exactly when each of them fits the five groups the readers take. -/
theorem wideRoundTrip_iff (endian : Endian) {baseSize : ℕ} {sign : Signedness}
    {values : List (BitVec 64)} (hroom : (values.flatMap (encodedBytes sign)).length < baseSize) :
    WideRoundTrip junk host endian baseSize sign values ↔
      ∀ value ∈ values, FitsFiveGroups sign value := by
  refine ⟨WideRoundTrip.fitsFiveGroups junk host hroom, fun hfits ↦ ⟨?_, ?_⟩⟩
  · obtain ⟨written, atStart, hwrite, hposition, hreading⟩ :=
      writeVarints_setPosition junk endian hroom
    rw [← List.append_nil (values.flatMap (encodedBytes sign))] at hreading
    have hcodes (value : BitVec 64) (hmem : value ∈ values) :=
      (fitsFiveGroups_iff sign value).mp (hfits value hmem)
    obtain ⟨final, hread, hfinal⟩ :=
      reads_readVarints host endian (by omega) sign hcodes atStart [] hreading
    have hlength := hfinal.length_eq
    refine ⟨written, atStart, final, hwrite, hposition, hread, ?_⟩
    rw [getReadableSize, hlength, List.length_nil, Nat.add_zero, Nat.sub_self]
  · exact fun value _ ↦ length_varintBytes_le _

/-- The bytes of one value fit a block of 32 bytes. -/
theorem length_encodedBytes_singleton (sign : Signedness) (value : BitVec 64) :
    ([value].flatMap (encodedBytes sign)).length < 32 := by
  have hlength := length_varintBytes_le (varintCode sign value)
  rw [List.flatMap_singleton, encodedBytes]
  omega

/-- The least value in the range of `readInt64` comes back. -/
theorem wideRoundTrip_least :
    WideRoundTrip (fun _ _ ↦ 0) .little .little 32 .signed [BitVec.ofInt 64 (-2 ^ 34)] :=
  (wideRoundTrip_iff _ _ .little (length_encodedBytes_singleton _ _)).mpr (by
    simp [FitsFiveGroups])

/-- The unsigned value with only bit 35 set does not come back. -/
theorem not_wideRoundTrip_bit35 :
    ¬ WideRoundTrip (fun _ _ ↦ 0) .little .little 32 .unsigned [BitVec.ofNat 64 (2 ^ 35)] := by
  intro htrip
  have hfits := htrip.fitsFiveGroups _ _ (length_encodedBytes_singleton _ _)
  exact absurd (hfits _ List.mem_cons_self) (by simp [FitsFiveGroups])

end ByteArray

end Cczoe.Net
