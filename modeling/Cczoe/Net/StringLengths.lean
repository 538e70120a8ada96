import Cczoe.Net.TypedRoundTrip

/-!
# Strings behind their lengths

The string writers convert `size()` to the bits of the length field, 16, 32 or 64 of them, and write
the string in full. The readers take as many bytes as the field says (`readString_take`), so a
string longer than its field can say is cut and the bytes behind the cut are read as what was
written next. `stringRoundTrip_iff` is the exact condition: a string comes back, with whatever was
written behind it, when its length fits the field. The fields of 64 bits hold every length.
-/

set_option autoImplicit false
set_option relaxedAutoImplicit false

namespace Cczoe.Net

open Foundations.BlockStorage Foundations.ByteNumerals

namespace ByteArray

variable (junk : ℕ → ℕ → UInt8) (host : Endian)

/-! ### The four pairs -/

/-- A pair of a string writer and a string reader. -/
inductive StringPair
  | f16
  | f32
  | f64
  | vint
  deriving DecidableEq, Repr

namespace StringPair

/-- The bits of the length field. -/
def width : StringPair → ℕ
  | f16 => 16
  | f32 => 32
  | f64 => 64
  | vint => 64

def write : StringPair → List UInt8 → ByteArrayM Unit
  | f16 => writeStringF16 junk host
  | f32 => writeStringF32 junk host
  | f64 => writeStringF64 junk host
  | vint => writeStringVint junk host

def read : StringPair → ByteArrayM (List UInt8)
  | f16 => readStringF16 host
  | f32 => readStringF32 host
  | f64 => readStringF64 host
  | vint => readStringVint host

theorem write_eq (pair : StringPair) (s : List UInt8) :
    pair.write junk host s = writeString junk host pair.width s := by
  cases pair <;> rfl

theorem read_eq (pair : StringPair) : pair.read host = readString host pair.width := by
  cases pair <;> rfl

theorem dvd_width (pair : StringPair) : 8 ∣ pair.width := by
  cases pair <;> decide

end StringPair

theorem length_stringBytes (endian : Endian) (w : ℕ) (s : List UInt8) :
    (stringBytes host endian w s).length = w / 8 + s.length := by
  rw [stringBytes, List.length_append, length_fixedBytes]

/-- Assumes: a whole number of bytes in the length field. The reader returns as many bytes of the
string that comes next as the bits of the field say. -/
theorem readString_take {w : ℕ} (hw : 8 ∣ w) {endian : Endian} {s rest : List UInt8} {b : ByteArray}
    (hreading : Reading b endian (stringBytes host endian w s ++ rest)) :
    ∃ after, readString host w b = .ok (s.take (s.length % 2 ^ w)) after := by
  rw [stringBytes, List.append_assoc] at hreading
  obtain ⟨middle, hlength, hmiddle⟩ :=
    reads_readFixed host hw endian .unsigned (BitVec.ofNat w s.length) b (s ++ rest) hreading
  rw [← List.take_append_drop (s.length % 2 ^ w) s, List.append_assoc] at hmiddle
  obtain ⟨after, hread, -⟩ := hmiddle.read
  rw [List.length_take_of_le (Nat.mod_le _ _)] at hread
  refine ⟨after, ?_⟩
  rw [readString, bind_ok hlength, BitVec.toNat_ofNat, hread]

/-- Written behind some bytes, with others behind it, and read from where its write started, the
string comes back; the others are what is readable then, and they are read next. -/
def StringRoundTrip (pair : StringPair) (b : ByteArray) (s next : List UInt8) : Prop :=
  ∃ middle behind atStart after final, pair.write junk host s b = .ok () middle ∧
    write junk next middle = .ok () behind ∧
    ByteArray.setPosition b.position behind = .ok () atStart ∧
    pair.read host atStart = .ok s after ∧ after.getReadableSize = next.length ∧
    read next.length after = .ok next final

section RoundTrip

variable {b : ByteArray} {baseSize : ℕ} {endian : Endian} {written s next : List UInt8}

/-- Assumes: a block with room for all bytes. The string and the bytes behind it are written, and
`setPosition` goes back to the start of the string. -/
theorem writeString_setPosition (hfilling : Filling b baseSize endian written) (pair : StringPair)
    (hroom : written.length + (pair.width / 8 + s.length) + next.length < baseSize) :
    ∃ middle behind atStart, pair.write junk host s b = .ok () middle ∧
      write junk next middle = .ok () behind ∧
      ByteArray.setPosition b.position behind = .ok () atStart ∧
      Reading atStart endian (stringBytes host endian pair.width s ++ next) := by
  have hlength := length_stringBytes host endian pair.width s
  obtain ⟨middle, hwrite, hmiddle⟩ := appends_writeString junk host baseSize endian pair.width s b
    written hfilling (by omega)
  have hfirst : (written ++ stringBytes host endian pair.width s).length + next.length <
      baseSize := by
    rw [List.length_append]
    omega
  obtain ⟨behind, hnext, hbehind⟩ := hmiddle.write junk hfirst
  have hstart : written.length ≤
      (written ++ stringBytes host endian pair.width s ++ next).length := by
    rw [List.length_append, List.length_append]
    omega
  obtain ⟨atStart, hposition, hreading⟩ :=
    hbehind.setPosition_to (by rw [List.length_append]; exact hfirst) hstart
  rw [List.append_assoc, List.drop_left] at hreading
  rw [← hfilling.seated.position_eq] at hposition
  exact ⟨middle, behind, atStart, by rwa [pair.write_eq], hnext, hposition, hreading⟩

/-- Assumes: a string longer than its length field can say, in a block with room for all bytes. It
does not come back. -/
theorem not_stringRoundTrip_of_long (hfilling : Filling b baseSize endian written)
    (pair : StringPair)
    (hroom : written.length + (pair.width / 8 + s.length) + next.length < baseSize)
    (hlong : 2 ^ pair.width ≤ s.length) : ¬ StringRoundTrip junk host pair b s next := by
  rintro ⟨middle, behind, atStart, after, final, hwrite, hnext, hposition, hread, -⟩
  obtain ⟨middle', behind', atStart', hwrite', hnext', hposition', hreading⟩ :=
    writeString_setPosition junk host hfilling pair hroom
  rw [hwrite] at hwrite'
  obtain rfl : middle = middle' := by simpa using hwrite'
  rw [hnext] at hnext'
  obtain rfl : behind = behind' := by simpa using hnext'
  rw [hposition] at hposition'
  obtain rfl : atStart = atStart' := by simpa using hposition'
  obtain ⟨stop, hcut⟩ := readString_take host pair.dvd_width hreading
  rw [pair.read_eq, hcut] at hread
  obtain ⟨hsame, -⟩ : s.take (s.length % 2 ^ pair.width) = s ∧ stop = after := by
    simpa using hread
  have hshort := congrArg List.length hsame
  rw [List.length_take_of_le (Nat.mod_le _ _)] at hshort
  have hmod := Nat.mod_lt s.length (Nat.two_pow_pos pair.width)
  omega

/-- Assumes: a block with room for all bytes. A string comes back, with what was written behind it,
exactly when its length fits the length field. -/
theorem stringRoundTrip_iff (hfilling : Filling b baseSize endian written) (pair : StringPair)
    (hroom : written.length + (pair.width / 8 + s.length) + next.length < baseSize) :
    StringRoundTrip junk host pair b s next ↔ s.length < 2 ^ pair.width := by
  constructor
  · intro htrip
    by_contra hlong
    exact not_stringRoundTrip_of_long junk host hfilling pair hroom (by omega) htrip
  · intro hfits
    obtain ⟨middle, behind, atStart, hwrite, hnext, hposition, hreading⟩ :=
      writeString_setPosition junk host hfilling pair hroom
    obtain ⟨after, hread, hafter⟩ :=
      reads_readString host pair.dvd_width endian hfits atStart next hreading
    have hlength := hafter.length_eq
    rw [← List.append_nil next] at hafter
    obtain ⟨final, hrest, -⟩ := hafter.read
    refine ⟨middle, behind, atStart, after, final, hwrite, hnext, hposition, ?_, ?_, hrest⟩
    · rw [pair.read_eq, hread]
    · rw [getReadableSize]
      omega

end RoundTrip

/-- A string with a varint length, written at the start of a block, and a byte behind it. -/
theorem stringRoundTrip_vint :
    StringRoundTrip (fun _ _ ↦ 0) .little .vint
      ((ofBaseSize (fun _ _ ↦ 0) 32).setEndian .big) [104, 105] [7] :=
  (stringRoundTrip_iff _ _ (filling_ofBaseSize _ (by decide) _) .vint (by decide)).mpr (by decide)

/-- A string of 65536 bytes does not come back behind a length field of 16 bits. -/
theorem not_stringRoundTrip_f16 :
    ¬ StringRoundTrip (fun _ _ ↦ 0) .little .f16
      ((ofBaseSize (fun _ _ ↦ 0) 131072).setEndian .little) (List.replicate 65536 97) [7] := by
  refine not_stringRoundTrip_of_long _ _ (filling_ofBaseSize _ (by decide) _) .f16 ?_ ?_
  · rw [List.length_replicate]
    decide
  · rw [List.length_replicate]
    decide

end ByteArray

end Cczoe.Net
