import Cczoe.Net.Positioning
import Cczoe.Net.TypedRoundTrip

/-!
# Byte orders of fixed-width integers

The byte order of an array is meant to fix the stored bytes of an integer on every host: most
significant byte first under `setBigEndian`, least significant first under `setLittleEndian`. These
are the bytes `store endian value`, as a machine of that order lays the integer out.

`byteswap` has no branch for signed types, so a signed writer stores the bytes in the order of its
host and a signed reader takes them in the order of its own (`fixedBytes_eq_store_iff`,
`decodeFixed_store_iff`). `portable_iff` is the exact condition for a transfer between two hosts:
a setting that is the order of the host, or an unsigned function, on both sides, or a value that
reads the same from both ends.
-/

set_option autoImplicit false
set_option relaxedAutoImplicit false

namespace Cczoe.Net

open Foundations.BlockStorage Foundations.ByteNumerals

/-! ### Swapped bytes -/

section Swapping

variable {w : ℕ}

/-- Assumes: a whole number of bytes, and two different byte orders. A host of one order stores the
swapped integer as a host of the other order stores the integer. -/
theorem store_bswap (hw : 8 ∣ w) {host endian : Endian} (hother : endian ≠ host)
    (value : BitVec w) : store host (bswap value) = store endian value := by
  rw [store, store, littleEndian_bswap hw]
  cases host with
  | little =>
    cases endian with
    | little => exact absurd rfl hother
    | big => rfl
  | big =>
    cases endian with
    | little => exact List.reverse_reverse _
    | big => exact absurd rfl hother

/-- Assumes: a whole number of bytes. No two integers are stored in the same bytes. -/
theorem store_injective (hw : 8 ∣ w) (host : Endian) :
    Function.Injective (store host (w := w)) := by
  intro first second hsame
  rw [← load_store host hw first, hsame, load_store host hw]

/-- Assumes: a whole number of bytes. The writer stores the bytes the setting asks for exactly when
its type is unsigned, the setting is the order of the host, or swapping changes nothing. -/
theorem fixedBytes_eq_store_iff (hw : 8 ∣ w) (host endian : Endian) (sign : Signedness)
    (value : BitVec w) :
    ByteArray.fixedBytes host endian sign value = store endian value ↔
      sign = .unsigned ∨ endian = host ∨ bswap value = value := by
  rw [ByteArray.fixedBytes]
  by_cases hsame : endian = host
  · rw [if_neg (not_not.mpr hsame), hsame]
    exact iff_of_true rfl (Or.inr (Or.inl rfl))
  rw [if_pos hsame]
  cases sign with
  | unsigned => exact iff_of_true (store_bswap hw hsame value) (Or.inl rfl)
  | signed =>
    rw [← store_bswap hw hsame, byteswap, (store_injective hw host).eq_iff]
    simp only [reduceCtorEq, hsame, false_or, eq_comm]

/-- The integer the reader makes of bytes. -/
def decodeFixed (host endian : Endian) (sign : Signedness) (w : ℕ) (bytes : List UInt8) :
    BitVec w :=
  if endian = host then load host w bytes else byteswap sign (load host w bytes)

/-- Assumes: a whole number of bytes. From the bytes the setting asks for the reader gets the
integer exactly when its type is unsigned, the setting is the order of the host, or swapping changes
nothing. -/
theorem decodeFixed_store_iff (hw : 8 ∣ w) (host endian : Endian) (sign : Signedness)
    (value : BitVec w) :
    decodeFixed host endian sign w (store endian value) = value ↔
      sign = .unsigned ∨ endian = host ∨ bswap value = value := by
  rw [decodeFixed]
  by_cases hsame : endian = host
  · rw [if_pos hsame, hsame, load_store host hw]
    exact iff_of_true rfl (Or.inr (Or.inl rfl))
  rw [if_neg hsame, ← store_bswap hw hsame, load_store host hw]
  cases sign with
  | unsigned => exact iff_of_true (bswap_bswap hw value) (Or.inl rfl)
  | signed => simp only [byteswap, reduceCtorEq, hsame, false_or]

end Swapping

/-! ### The functions of the source -/

/-- A width whose byte order matters. -/
inductive Width
  | w16
  | w32
  | w64
  deriving DecidableEq, Repr

def Width.bits : Width → ℕ
  | w16 => 16
  | w32 => 32
  | w64 => 64

theorem Width.dvd_bits (width : Width) : 8 ∣ width.bits := by
  cases width <;> decide

namespace ByteArray

variable (junk : ℕ → ℕ → UInt8)

/-- `writeFint16`, …, `writeFuint64`. -/
def writeInteger (host : Endian) :
    (width : Width) → Signedness → BitVec width.bits → ByteArrayM Unit
  | .w16, .signed => writeFint16 junk host
  | .w16, .unsigned => writeFuint16 junk host
  | .w32, .signed => writeFint32 junk host
  | .w32, .unsigned => writeFuint32 junk host
  | .w64, .signed => writeFint64 junk host
  | .w64, .unsigned => writeFuint64 junk host

/-- `readFint16`, …, `readFuint64`. -/
def readInteger (host : Endian) : (width : Width) → Signedness → ByteArrayM (BitVec width.bits)
  | .w16, .signed => readFint16 host
  | .w16, .unsigned => readFuint16 host
  | .w32, .signed => readFint32 host
  | .w32, .unsigned => readFuint32 host
  | .w64, .signed => readFint64 host
  | .w64, .unsigned => readFuint64 host

theorem writeInteger_eq (host : Endian) (width : Width) (sign : Signedness)
    (value : BitVec width.bits) :
    writeInteger junk host width sign value = writeFixed junk host sign value := by
  cases width <;> cases sign <;> rfl

theorem readInteger_eq (host : Endian) (width : Width) (sign : Signedness) :
    readInteger host width sign = readFixed host sign width.bits := by
  cases width <;> cases sign <;> rfl

/-- Assumes: a placed array with free space. The writer stores the bytes of the value at the
position. -/
theorem writeInteger_placed {b : ByteArray} (hb : Placed b) (hfree : b.position < b.capacity)
    (host : Endian) {width : Width} (sign : Signedness) (value : BitVec width.bits) :
    ∃ after, writeInteger junk host width sign value b = .ok () after ∧
      (after.text.drop b.position).take (width.bits / 8) =
        fixedBytes host b.endian sign value := by
  obtain ⟨after, hwrite, hafter, hposition, hsize, hbytes, -⟩ :=
    write_placed junk hb hfree (fixedBytes host b.endian sign value)
  have hlength := length_fixedBytes host b.endian sign value
  have hend := hafter.size_le
  refine ⟨after, by rw [writeInteger_eq]; exact hwrite, ?_⟩
  apply List.ext_getElem?
  intro i
  by_cases hi : i < width.bits / 8
  · rw [List.getElem?_take_of_lt hi, List.getElem?_drop, hbytes i (by omega)]
  · rw [List.getElem?_take_eq_none (by omega), List.getElem?_eq_none (by omega)]

/-- Assumes: a placed array with enough readable bytes. The reader decodes those at the position. -/
theorem readInteger_placed {b : ByteArray} (hb : Placed b) (host : Endian) {width : Width}
    (sign : Signedness) (hreadable : width.bits / 8 ≤ b.getReadableSize) :
    ∃ after, readInteger host width sign b = .ok (decodeFixed host b.endian sign width.bits
      ((b.text.drop b.position).take (width.bits / 8))) after := by
  have hpos : 0 < width.bits / 8 := by cases width <;> decide
  have hposition := hb.position_lt (by omega)
  have hends : b.position + width.bits / 8 ≤ b.size := by
    have hle := hb.position_le
    rw [getReadableSize] at hreadable
    omega
  refine ⟨{ b with
    position := b.position + width.bits / 8
    curr := seat b.baseSize b.root.length (b.position + width.bits / 8) }, ?_⟩
  rw [readInteger_eq, readFixed, bind_ok (read_eq (hb.wellFormed (by omega)) hposition hends)]
  rfl

/-- Under the byte order of the array `b`, a value written by a host with a writer of one sign is
stored in the bytes of that order; and a host reads the value with a reader of one sign from the
array `source`. -/
def Portable (writer reader : Endian) (width : Width) (written read : Signedness)
    (b source : ByteArray) (value : BitVec width.bits) : Prop :=
  ∃ after final, writeInteger junk writer width written value b = .ok () after ∧
    (after.text.drop b.position).take (width.bits / 8) = store b.endian value ∧
    readInteger reader width read source = .ok value final

/-- The bytes the writer stores in `b` come next in `source`, which has the same byte order. -/
structure Carries (writer : Endian) (width : Width) (written : Signedness) (b source : ByteArray)
    (value : BitVec width.bits) : Prop where
  placed : Placed source
  endian_eq : source.endian = b.endian
  readable : width.bits / 8 ≤ source.getReadableSize
  bytes_eq : ∀ after, writeInteger junk writer width written value b = .ok () after →
    (source.text.drop source.position).take (width.bits / 8) =
      (after.text.drop b.position).take (width.bits / 8)

/-- Assumes: a placed array with free space, and a writer that stores other bytes than the setting
asks for. The transfer does not work. -/
theorem not_portable_of_bytes {b : ByteArray} (hb : Placed b) (hfree : b.position < b.capacity)
    {writer : Endian} {width : Width} {written : Signedness} {value : BitVec width.bits}
    (hbytes : fixedBytes writer b.endian written value ≠ store b.endian value) (reader : Endian)
    (read : Signedness) (source : ByteArray) :
    ¬ Portable junk writer reader width written read b source value := by
  rintro ⟨after, final, hwrite, htext, -⟩
  obtain ⟨after', hwrite', htext'⟩ := writeInteger_placed junk hb hfree writer written value
  rw [hwrite] at hwrite'
  obtain rfl : after = after' := by simpa using hwrite'
  exact hbytes (htext'.symm.trans htext)

/-- Assumes: a placed array with free space, and an array that carries what is written there to the
reader. The transfer works exactly when swapping changes nothing or, on both sides, the function is
unsigned or the setting is the order of the host. -/
theorem portable_iff {b source : ByteArray} (hb : Placed b) (hfree : b.position < b.capacity)
    {writer : Endian} {width : Width} {written : Signedness} {value : BitVec width.bits}
    (hcarries : Carries junk writer width written b source value) (reader : Endian)
    (read : Signedness) :
    Portable junk writer reader width written read b source value ↔
      bswap value = value ∨
        ((written = .unsigned ∨ b.endian = writer) ∧ (read = .unsigned ∨ b.endian = reader)) := by
  have hstored := fixedBytes_eq_store_iff width.dvd_bits writer b.endian written value
  have hdecoded := decodeFixed_store_iff width.dvd_bits reader b.endian read value
  have hsplit : bswap value = value ∨
      ((written = .unsigned ∨ b.endian = writer) ∧ (read = .unsigned ∨ b.endian = reader)) ↔
      fixedBytes writer b.endian written value = store b.endian value ∧
        decodeFixed reader b.endian read width.bits (store b.endian value) = value := by
    rw [hstored, hdecoded, or_comm, and_or_right, or_assoc, or_assoc]
  rw [hsplit]
  by_cases hbytes : fixedBytes writer b.endian written value = store b.endian value
  · obtain ⟨after, hwrite, htext⟩ := writeInteger_placed junk hb hfree writer written value
    obtain ⟨final, hread⟩ := readInteger_placed hcarries.placed reader read hcarries.readable
    rw [hcarries.bytes_eq after hwrite, htext, hbytes, hcarries.endian_eq] at hread
    constructor
    · rintro ⟨-, final', -, -, hread'⟩
      rw [hread] at hread'
      have hvalue : decodeFixed reader b.endian read width.bits (store b.endian value) = value ∧
          final = final' := by simpa using hread'
      exact ⟨hbytes, hvalue.1⟩
    · rintro ⟨-, hvalue⟩
      exact ⟨after, final, hwrite, htext.trans hbytes, by rw [hread, hvalue]⟩
  · exact ⟨fun hportable ↦
      absurd hportable (not_portable_of_bytes junk hb hfree hbytes reader read source),
      fun hgood ↦ absurd hgood.1 hbytes⟩

/-- An array of one block in network order, with nothing in it. -/
def networkOrder : ByteArray := (ofBaseSize (fun _ _ ↦ 0) 8).setEndian .big

theorem placed_networkOrder : Placed networkOrder :=
  ⟨⟨by decide, by decide⟩, by decide, by decide, by decide, by decide⟩

/-- The same array with the four bytes of a word in it. -/
def networkWord : ByteArray :=
  { networkOrder with size := 4, root := [⟨[1, 2, 3, 4, 0, 0, 0, 0]⟩] }

theorem carries_networkWord :
    Carries (fun _ _ ↦ 0) .little .w32 .unsigned networkOrder networkWord
      (0x01020304 : BitVec 32) where
  placed := ⟨⟨by decide, by decide⟩, by decide, by decide, by decide, by decide⟩
  endian_eq := rfl
  readable := by decide
  bytes_eq := by
    intro after hwrite
    have hstored : writeInteger (fun _ _ ↦ 0) .little .w32 .unsigned
        (0x01020304 : BitVec 32) networkOrder = .ok () { networkWord with position := 4 } := rfl
    rw [hstored] at hwrite
    obtain rfl : { networkWord with position := 4 } = after := by simpa using hwrite
    rfl

/-- An unsigned word in network order, from a little-endian host to a big-endian one. -/
theorem portable_network_order :
    Portable (fun _ _ ↦ 0) .little .big .w32 .unsigned .unsigned networkOrder networkWord
      (0x01020304 : BitVec 32) :=
  (portable_iff _ placed_networkOrder (by decide) carries_networkWord .big .unsigned).mpr
    (Or.inr ⟨Or.inl rfl, Or.inl rfl⟩)

/-- The signed writer of a little-endian host leaves a 1 least significant byte first under
`setBigEndian`. -/
theorem not_portable_signed :
    ¬ Portable (fun _ _ ↦ 0) .little .little .w16 .signed .unsigned networkOrder
      { networkOrder with size := 2, root := [⟨[1, 0, 0, 0, 0, 0, 0, 0]⟩] } (1 : BitVec 16) :=
  not_portable_of_bytes _ placed_networkOrder (by decide) (by decide) .little .unsigned _

end ByteArray

end Cczoe.Net
