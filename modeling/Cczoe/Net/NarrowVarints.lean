import Cczoe.Net.IncompleteReads
import Cczoe.Net.WideVarints

/-!
# Varints of 32 bits

`writeInt32` and `writeUint32` emit a value in one to five groups of seven bits, no more than any
other spelling of the number in such groups takes (`Spells.length_base128_le`). The zigzag map that
`writeInt32` puts in front is a bijection (`encodeZigzag_decodeZigzag` is the half that is not in
`decodeZigzag_encodeZigzag`).

`readInt32` and `readUint32` have five turns, enough for every code. They read from any array whose
cursor is at its position, over block boundaries and whatever follows: `narrowVarints_read_back` is
the round trip for lists of values.
-/

set_option autoImplicit false
set_option relaxedAutoImplicit false

namespace Cczoe.Net

open Foundations.ByteNumerals

/-! ### Spellings -/

/-- The bytes are groups of seven bits of the number, least significant first, the high bit set on
every byte but the last. Zero groups may stand at the end. -/
inductive Spells : List UInt8 → ℕ → Prop
  | last {byte : UInt8} (hbyte : byte.toNat < 128) : Spells [byte] byte.toNat
  | more {byte : UInt8} {rest : List UInt8} {value : ℕ} (hbyte : 128 ≤ byte.toNat)
      (hrest : Spells rest value) : Spells (byte :: rest) (byte.toNat - 128 + 128 * value)

theorem spells_base128 (value : ℕ) : Spells (base128 value) value := by
  induction value using base128.induct with
  | case1 value hsmall =>
    have hbyte : (UInt8.ofNat value).toNat = value := by
      rw [UInt8.toNat_ofNat']
      omega
    have hspells : Spells [UInt8.ofNat value] (UInt8.ofNat value).toNat :=
      Spells.last (by omega)
    rwa [hbyte, ← base128_of_lt hsmall] at hspells
  | case2 value hlarge ih =>
    have hbyte : (UInt8.ofNat (value % 128 + 128)).toNat = value % 128 + 128 := by
      rw [UInt8.toNat_ofNat']
      omega
    have hspells := Spells.more (show 128 ≤ (UInt8.ofNat (value % 128 + 128)).toNat by omega) ih
    have hvalue : value % 128 + 128 - 128 + 128 * (value / 128) = value := by omega
    rwa [hbyte, hvalue, ← base128_of_le (by omega)] at hspells

theorem Spells.length_pos {bytes : List UInt8} {value : ℕ} (hspells : Spells bytes value) :
    1 ≤ bytes.length := by
  cases hspells with
  | last hbyte => exact le_refl 1
  | more hbyte hrest => exact Nat.succ_le_succ (Nat.zero_le _)

/-- `base128` is a shortest spelling. -/
theorem Spells.length_base128_le {bytes : List UInt8} {value : ℕ} (hspells : Spells bytes value) :
    (base128 value).length ≤ bytes.length := by
  induction hspells with
  | last hbyte => rw [base128_of_lt hbyte, List.length_singleton, List.length_singleton]
  | @more byte rest value hbyte hrest ih =>
    have hlt : byte.toNat < 256 := byte.toNat_lt
    have hpos := hrest.length_pos
    by_cases hsmall : byte.toNat - 128 + 128 * value < 128
    · rw [base128_of_lt hsmall, List.length_singleton, List.length_cons]
      omega
    · have hdiv : (byte.toNat - 128 + 128 * value) / 128 = value := by omega
      rw [base128_of_le (by omega), hdiv, List.length_cons, List.length_cons]
      omega

/-- `EncodeZigzag` undoes `DecodeZigzag`. Assumes: at least two bits. -/
theorem encodeZigzag_decodeZigzag {w : ℕ} (hw : 1 < w) (v : BitVec w) :
    encodeZigzag (decodeZigzag v) = v :=
  decodeZigzag_injective hw (decodeZigzag_encodeZigzag hw (decodeZigzag v))

namespace ByteArray

variable (junk : ℕ → ℕ → UInt8) (host : Endian)

/-! ### Writing -/

/-- The writers hand the encodings to `write` one after the other. -/
theorem writeVarints_eq {w : ℕ} (sign : Signedness) (values : List (BitVec w)) :
    writeVarints junk sign values = writeAll junk (values.map (encodedBytes sign)) := by
  induction values with
  | nil => rfl
  | cons value rest ih => rw [writeVarints, List.map_cons, writeAll, writeVarint, ih]

/-- The bytes are a shortest spelling of the number, and they fit the five bytes of `tmp`. -/
structure ShortForm (bytes : List UInt8) (value : ℕ) : Prop where
  spells : Spells bytes value
  shortest : ∀ other, Spells other value → bytes.length ≤ other.length
  some_byte : 1 ≤ bytes.length
  fits_tmp : bytes.length ≤ 5

theorem shortForm_encodedBytes (sign : Signedness) (value : BitVec 32) :
    ShortForm (encodedBytes sign value) (varintCode sign value).toNat := by
  rw [encodedBytes, varintBytes_eq (by omega)]
  exact ⟨spells_base128 _, fun other hspells ↦ hspells.length_base128_le,
    (spells_base128 _).length_pos, length_base128_le 4 _ (varintCode_lt sign value)⟩

/-! ### Reading -/

/-- A state `b` on the way of readers that started from `origin`: only position and cursor have
changed, the cursor is at the position, and `bytes` come next. -/
structure Ahead (origin : ByteArray) (b : ByteArray) (bytes : List UInt8) : Prop where
  placed : Placed b
  pending_eq : b.pending = bytes
  position_le : origin.position ≤ b.position
  same : { b with position := origin.position, curr := origin.curr } = origin

theorem Placed.ahead {b : ByteArray} (hb : Placed b) : Ahead b b b.pending :=
  ⟨hb, rfl, le_refl _, rfl⟩

theorem feeds_ahead (origin : ByteArray) : Feeds host (Ahead origin) := by
  intro b byte rest hahead
  obtain ⟨hread, hplaced, hpending⟩ :=
    readFuint8_advance hahead.placed host hahead.pending_eq
  exact ⟨b.advance 1, hread, hplaced, hpending, hahead.position_le.trans (Nat.le_add_right _ 1),
    hahead.same⟩

/-- The readers take the encodings off one by one. -/
theorem Ahead.readVarints {origin : ByteArray} {sign : Signedness} {rest : List UInt8}
    (values : List (BitVec 32)) :
    ∀ b, Ahead origin b (values.flatMap (encodedBytes sign) ++ rest) →
      ∃ after, ByteArray.readVarints host sign values.length b = .ok values after ∧
        Ahead origin after rest := by
  induction values with
  | nil => exact fun b hahead ↦ ⟨b, rfl, hahead⟩
  | cons value others ih =>
    intro b hahead
    rw [List.flatMap_cons, List.append_assoc] at hahead
    obtain ⟨middle, hfirst, hmiddle⟩ :=
      (feeds_ahead host origin).readVarint host (by omega) (varintCode_lt sign value) hahead
    obtain ⟨after, hothers, hafter⟩ := ih middle hmiddle
    refine ⟨after, ?_, hafter⟩
    rw [List.length_cons, ByteArray.readVarints, bind_ok hfirst, bind_ok hothers]
    rfl

/-- What is left ahead says where the position is. -/
theorem Ahead.position_eq {origin b : ByteArray} {bytes rest : List UInt8}
    (hplaced : Placed origin) (horigin : origin.pending = bytes ++ rest)
    (hahead : Ahead origin b rest) : b.position = origin.position + bytes.length := by
  have hsame := congrArg ByteArray.size hahead.same
  have hsize : b.size = origin.size := hsame
  have hbefore := length_pending hplaced
  have hafter := length_pending hahead.placed
  have hend := hahead.placed.position_le
  rw [horigin, List.length_append, getReadableSize] at hbefore
  rw [hahead.pending_eq, getReadableSize] at hafter
  have hstart := hplaced.position_le
  omega

/-- Assumes: an array with its cursor at its position, where the encodings of some values come next,
and any bytes behind them. Each value has its shortest form, the writers hand these forms to
`write`, the readers return the values and stop behind the last encoding with everything but
position and cursor unchanged, and the two zigzag maps undo each other. -/
theorem narrowVarints_read_back (sign : Signedness) (values : List (BitVec 32)) {b : ByteArray}
    {rest : List UInt8} (hb : Placed b)
    (hpending : b.pending = values.flatMap (encodedBytes sign) ++ rest) :
    (∀ value : BitVec 32,
      ShortForm (encodedBytes sign value) (varintCode sign value).toNat) ∧
    writeVarints junk sign values = writeAll junk (values.map (encodedBytes sign)) ∧
    (∃ after, readVarints host sign values.length b = .ok values after ∧
      after.position = b.position + (values.flatMap (encodedBytes sign)).length ∧
      after.pending = rest ∧
      { after with position := b.position, curr := b.curr } = b) ∧
    (∀ value : BitVec 32, decodeZigzag (encodeZigzag value) = value) ∧
    ∀ code : BitVec 32, encodeZigzag (decodeZigzag code) = code := by
  refine ⟨shortForm_encodedBytes sign, writeVarints_eq junk sign values, ?_,
    decodeZigzag_encodeZigzag (by omega), encodeZigzag_decodeZigzag (by omega)⟩
  have hahead := hb.ahead
  rw [hpending] at hahead
  obtain ⟨after, hread, hafter⟩ := hahead.readVarints host values
  exact ⟨after, hread, hafter.position_eq hb hpending, hafter.pending_eq, hafter.same⟩

/-- Blocks of four bytes that hold the encodings of the least number, `-1` and `1`, and one byte
more. -/
def acrossBlocks : ByteArray where
  baseSize := 4
  position := 0
  capacity := 8
  size := 8
  endian := .little
  root := [⟨[0xff, 0xff, 0xff, 0xff]⟩, ⟨[0x0f, 0x01, 0x02, 0x99]⟩]
  curr := some 0

theorem placed_acrossBlocks : Placed acrossBlocks :=
  ⟨⟨by decide, rfl⟩, by decide, by decide, by decide, rfl⟩

/-- The least number fills its five bytes over a block boundary. -/
theorem narrowVarints_read_back_acrossBlocks :
    ∃ after, readVarints .little .signed 3 acrossBlocks =
        .ok [BitVec.ofInt 32 (-2 ^ 31), BitVec.ofInt 32 (-1), 1#32] after ∧
      after.position = 7 ∧ after.pending = [0x99] := by
  have hpending : acrossBlocks.pending =
      [BitVec.ofInt 32 (-2 ^ 31), BitVec.ofInt 32 (-1), 1#32].flatMap (encodedBytes .signed) ++
        [0x99] := by
    simp [encodedBytes, varintCode, encodeZigzag, varintBytes]
    rfl
  obtain ⟨-, -, ⟨after, hread, hposition, hrest, -⟩, -⟩ :=
    narrowVarints_read_back (fun _ _ ↦ 0) .little .signed _ placed_acrossBlocks hpending
  refine ⟨after, hread, ?_, hrest⟩
  rw [hposition]
  simp [encodedBytes, varintCode, encodeZigzag, varintBytes]
  rfl

end ByteArray

end Cczoe.Net
