import Cczoe.Net.BlockBuffer
import Cczoe.Foundations.ByteNumerals

/-!
# Typed values of `bytearray.cpp`

The typed writers and readers of `ByteArray` over its byte-wise `write` and `read`. An integer of
`w` bits, signed or not, is its bit pattern `BitVec w`, with two's-complement arithmetic; a `float`
or `double` is its bit pattern too. `host` is `CCZOE_BYTE_ORDER`, the byte order in which the
machine lays out an integer in memory.

`byteswap` (`endian.h`) swaps the unsigned types of 16, 32 and 64 bits and returns every other type
as it is, so the signed writers and readers never swap.
-/

set_option autoImplicit false
set_option relaxedAutoImplicit false

namespace Cczoe.Net

open Foundations.ByteNumerals

/-- Whether an integer type is signed. -/
inductive Signedness
  | signed
  | unsigned
  deriving DecidableEq, Repr

section Memory

variable (host : Endian)

/-- Bytes listed least significant first, in the order of the host, and back. -/
def hostOrder (bytes : List UInt8) : List UInt8 :=
  match host with
  | .little => bytes
  | .big => bytes.reverse

/-- The bytes of an integer in memory. -/
def store {w : ℕ} (value : BitVec w) : List UInt8 :=
  hostOrder host (littleEndian (w / 8) value.toNat)

/-- The integer whose bytes in memory are given. -/
def load (w : ℕ) (bytes : List UInt8) : BitVec w :=
  BitVec.ofNat w (ofLittleEndian (hostOrder host bytes))

end Memory

/-- `bswap_16`, `bswap_32` and `bswap_64`: the bytes in the opposite order. -/
def bswap {w : ℕ} (value : BitVec w) : BitVec w :=
  BitVec.ofNat w (ofLittleEndian (littleEndian (w / 8) value.toNat).reverse)

/-- The template `byteswap<T>`: no branch takes a signed `T`. -/
def byteswap {w : ℕ} (sign : Signedness) (value : BitVec w) : BitVec w :=
  match sign with
  | .signed => value
  | .unsigned => bswap value

/-- `EncodeZigzag32` and `EncodeZigzag64`. -/
def encodeZigzag {w : ℕ} (v : BitVec w) : BitVec w :=
  if v.slt 0#w then -v * 2#w - 1#w else v * 2#w

/-- `DecodeZigzag32` and `DecodeZigzag64`. -/
def decodeZigzag {w : ℕ} (v : BitVec w) : BitVec w :=
  (v >>> 1) ^^^ -(v &&& 1#w)

/-- The groups of a number, as the varint writers collect them in `tmp`. -/
def varintBytes {w : ℕ} (value : BitVec w) : List UInt8 :=
  if 0x80 ≤ value.toNat then
    UInt8.ofNat ((value &&& 0x7f#w) ||| 0x80#w).toNat :: varintBytes (value >>> 7)
  else [UInt8.ofNat value.toNat]
termination_by value.toNat
decreasing_by
  rw [BitVec.toNat_ushiftRight, Nat.shiftRight_eq_div_pow]
  omega

/-- The number whose groups are written for a value. -/
def varintCode {w : ℕ} (sign : Signedness) (value : BitVec w) : BitVec w :=
  match sign with
  | .signed => encodeZigzag value
  | .unsigned => value

/-- The bytes that are written for a value. -/
def encodedBytes {w : ℕ} (sign : Signedness) (value : BitVec w) : List UInt8 :=
  varintBytes (varintCode sign value)

/-- The values of `i` in `for (int i = 0; i < 32; i += 7)`. Both varint readers have this bound. -/
def varintShifts : List ℕ := [0, 7, 14, 21, 28]

namespace ByteArray

variable (junk : ℕ → ℕ → UInt8) (host : Endian)

/-! ### Fixed-width integers -/

/-- The common body of `writeFint16`, …, `writeFuint64`. -/
def writeFixed {w : ℕ} (sign : Signedness) (value : BitVec w) : ByteArrayM Unit := do
  let b ← get
  write junk (store host (if b.endian ≠ host then byteswap sign value else value))

/-- The common body of `readFint16`, …, `readFuint64`, the macro `XX`. -/
def readFixed (sign : Signedness) (w : ℕ) : ByteArrayM (BitVec w) := do
  let bytes ← read (w / 8)
  let b ← get
  let v := load host w bytes
  return if b.endian = host then v else byteswap sign v

def writeFint8 (value : BitVec 8) : ByteArrayM Unit := write junk (store host value)

def writeFuint8 (value : BitVec 8) : ByteArrayM Unit := write junk (store host value)

def writeFint16 (value : BitVec 16) : ByteArrayM Unit := writeFixed junk host .signed value

def writeFuint16 (value : BitVec 16) : ByteArrayM Unit := writeFixed junk host .unsigned value

def writeFint32 (value : BitVec 32) : ByteArrayM Unit := writeFixed junk host .signed value

def writeFuint32 (value : BitVec 32) : ByteArrayM Unit := writeFixed junk host .unsigned value

def writeFint64 (value : BitVec 64) : ByteArrayM Unit := writeFixed junk host .signed value

def writeFuint64 (value : BitVec 64) : ByteArrayM Unit := writeFixed junk host .unsigned value

def readFint8 : ByteArrayM (BitVec 8) := load host 8 <$> read 1

def readFuint8 : ByteArrayM (BitVec 8) := load host 8 <$> read 1

def readFint16 : ByteArrayM (BitVec 16) := readFixed host .signed 16

def readFuint16 : ByteArrayM (BitVec 16) := readFixed host .unsigned 16

def readFint32 : ByteArrayM (BitVec 32) := readFixed host .signed 32

def readFuint32 : ByteArrayM (BitVec 32) := readFixed host .unsigned 32

def readFint64 : ByteArrayM (BitVec 64) := readFixed host .signed 64

def readFuint64 : ByteArrayM (BitVec 64) := readFixed host .unsigned 64

/-! ### Floating point, as bit patterns -/

def writeFloat (bits : BitVec 32) : ByteArrayM Unit := writeFuint32 junk host bits

def writeDouble (bits : BitVec 64) : ByteArrayM Unit := writeFuint64 junk host bits

def readFloat : ByteArrayM (BitVec 32) := readFuint32 host

def readDouble : ByteArrayM (BitVec 64) := readFuint64 host

/-! ### Varints -/

/-- The common body of the varint writers. The signed ones call `EncodeZigzag` and the unsigned
ones. -/
def writeVarint {w : ℕ} (sign : Signedness) (value : BitVec w) : ByteArrayM Unit :=
  write junk (encodedBytes sign value)

def writeUint32 (value : BitVec 32) : ByteArrayM Unit := writeVarint junk .unsigned value

def writeInt32 (value : BitVec 32) : ByteArrayM Unit := writeVarint junk .signed value

def writeUint64 (value : BitVec 64) : ByteArrayM Unit := writeVarint junk .unsigned value

def writeInt64 (value : BitVec 64) : ByteArrayM Unit := writeVarint junk .signed value

/-- The `for` loop of `readUint32` and `readUint64`, over the values of `i` still to come. -/
def readVarintLoop {w : ℕ} : List ℕ → BitVec w → ByteArrayM (BitVec w)
  | [], result => pure result
  | i :: rest, result => do
    let b ← readFuint8 host
    if b.toNat < 0x80 then return result ||| (b.setWidth w <<< i)
    else readVarintLoop rest (result ||| ((b &&& 0x7f#8).setWidth w <<< i))

/-- The common body of the varint readers. The signed ones call the unsigned ones and
`DecodeZigzag`. -/
def readVarint {w : ℕ} (sign : Signedness) : ByteArrayM (BitVec w) :=
  match sign with
  | .signed => decodeZigzag <$> readVarintLoop host varintShifts 0
  | .unsigned => readVarintLoop host varintShifts 0

def readUint32 : ByteArrayM (BitVec 32) := readVarint host .unsigned

def readInt32 : ByteArrayM (BitVec 32) := readVarint host .signed

def readUint64 : ByteArrayM (BitVec 64) := readVarint host .unsigned

def readInt64 : ByteArrayM (BitVec 64) := readVarint host .signed

/-! ### Strings -/

/-- The common body of the string writers: `size()` converted to the `w` bits of the length field,
then the bytes. -/
def writeString (w : ℕ) (value : List UInt8) : ByteArrayM Unit := do
  writeFixed junk host .unsigned (BitVec.ofNat w value.length)
  write junk value

/-- The common body of the string readers. -/
def readString (w : ℕ) : ByteArrayM (List UInt8) := do
  let len ← readFixed host .unsigned w
  read len.toNat

def writeStringF16 (value : List UInt8) : ByteArrayM Unit := writeString junk host 16 value

def writeStringF32 (value : List UInt8) : ByteArrayM Unit := writeString junk host 32 value

def writeStringF64 (value : List UInt8) : ByteArrayM Unit := writeString junk host 64 value

/-- The length field of this pair is `writeFuint64` too, not a varint. -/
def writeStringVint (value : List UInt8) : ByteArrayM Unit := writeString junk host 64 value

def readStringF16 : ByteArrayM (List UInt8) := readString host 16

def readStringF32 : ByteArrayM (List UInt8) := readString host 32

def readStringF64 : ByteArrayM (List UInt8) := readString host 64

def readStringVint : ByteArrayM (List UInt8) := readString host 64

end ByteArray

/-! ### Values of all types -/

/-- The type of a value, which names its write and its read function. -/
inductive Kind
  | fint8 | fuint8 | fint16 | fuint16 | fint32 | fuint32 | fint64 | fuint64
  | float | double
  | int32 | uint32
  | stringF16 | stringF32 | stringF64 | stringVint
  deriving DecidableEq, Repr

/-- A typed value. -/
inductive Value
  | fint8 (v : BitVec 8)
  | fuint8 (v : BitVec 8)
  | fint16 (v : BitVec 16)
  | fuint16 (v : BitVec 16)
  | fint32 (v : BitVec 32)
  | fuint32 (v : BitVec 32)
  | fint64 (v : BitVec 64)
  | fuint64 (v : BitVec 64)
  | float (bits : BitVec 32)
  | double (bits : BitVec 64)
  | int32 (v : BitVec 32)
  | uint32 (v : BitVec 32)
  | stringF16 (s : List UInt8)
  | stringF32 (s : List UInt8)
  | stringF64 (s : List UInt8)
  | stringVint (s : List UInt8)
  deriving DecidableEq, Repr

namespace Value

def kind : Value → Kind
  | fint8 _ => .fint8
  | fuint8 _ => .fuint8
  | fint16 _ => .fint16
  | fuint16 _ => .fuint16
  | fint32 _ => .fint32
  | fuint32 _ => .fuint32
  | fint64 _ => .fint64
  | fuint64 _ => .fuint64
  | float _ => .float
  | double _ => .double
  | int32 _ => .int32
  | uint32 _ => .uint32
  | stringF16 _ => .stringF16
  | stringF32 _ => .stringF32
  | stringF64 _ => .stringF64
  | stringVint _ => .stringVint

/-- The number of bytes a value is written in. -/
def encodedLength : Value → ℕ
  | fint8 _ | fuint8 _ => 1
  | fint16 _ | fuint16 _ => 2
  | fint32 _ | fuint32 _ | float _ => 4
  | fint64 _ | fuint64 _ | double _ => 8
  | int32 v => (varintBytes (encodeZigzag v)).length
  | uint32 v => (varintBytes v).length
  | stringF16 s => 2 + s.length
  | stringF32 s => 4 + s.length
  | stringF64 s | stringVint s => 8 + s.length

/-- The length of a string fits the length field of its kind, where that field is shorter than
`size_t`. -/
def LengthFits : Value → Prop
  | stringF16 s => s.length ≤ 65535
  | stringF32 s => s.length < 2 ^ 32
  | _ => True

/-- The write function of a value. -/
def write (junk : ℕ → ℕ → UInt8) (host : Endian) : Value → ByteArrayM Unit
  | fint8 v => ByteArray.writeFint8 junk host v
  | fuint8 v => ByteArray.writeFuint8 junk host v
  | fint16 v => ByteArray.writeFint16 junk host v
  | fuint16 v => ByteArray.writeFuint16 junk host v
  | fint32 v => ByteArray.writeFint32 junk host v
  | fuint32 v => ByteArray.writeFuint32 junk host v
  | fint64 v => ByteArray.writeFint64 junk host v
  | fuint64 v => ByteArray.writeFuint64 junk host v
  | float bits => ByteArray.writeFloat junk host bits
  | double bits => ByteArray.writeDouble junk host bits
  | int32 v => ByteArray.writeInt32 junk v
  | uint32 v => ByteArray.writeUint32 junk v
  | stringF16 s => ByteArray.writeStringF16 junk host s
  | stringF32 s => ByteArray.writeStringF32 junk host s
  | stringF64 s => ByteArray.writeStringF64 junk host s
  | stringVint s => ByteArray.writeStringVint junk host s

end Value

/-- The read function of a kind. -/
def Kind.read (host : Endian) : Kind → ByteArrayM Value
  | fint8 => Value.fint8 <$> ByteArray.readFint8 host
  | fuint8 => Value.fuint8 <$> ByteArray.readFuint8 host
  | fint16 => Value.fint16 <$> ByteArray.readFint16 host
  | fuint16 => Value.fuint16 <$> ByteArray.readFuint16 host
  | fint32 => Value.fint32 <$> ByteArray.readFint32 host
  | fuint32 => Value.fuint32 <$> ByteArray.readFuint32 host
  | fint64 => Value.fint64 <$> ByteArray.readFint64 host
  | fuint64 => Value.fuint64 <$> ByteArray.readFuint64 host
  | float => Value.float <$> ByteArray.readFloat host
  | double => Value.double <$> ByteArray.readDouble host
  | int32 => Value.int32 <$> ByteArray.readInt32 host
  | uint32 => Value.uint32 <$> ByteArray.readUint32 host
  | stringF16 => Value.stringF16 <$> ByteArray.readStringF16 host
  | stringF32 => Value.stringF32 <$> ByteArray.readStringF32 host
  | stringF64 => Value.stringF64 <$> ByteArray.readStringF64 host
  | stringVint => Value.stringVint <$> ByteArray.readStringVint host

/-- The values written in order. -/
def writeValues (junk : ℕ → ℕ → UInt8) (host : Endian) : List Value → ByteArrayM Unit
  | [] => pure ()
  | value :: rest => do
    value.write junk host
    writeValues junk host rest

/-- Values of the given kinds read in order. -/
def readValues (host : Endian) : List Kind → ByteArrayM (List Value)
  | [] => pure []
  | kind :: rest => do
    let value ← kind.read host
    let values ← readValues host rest
    return value :: values

end Cczoe.Net
