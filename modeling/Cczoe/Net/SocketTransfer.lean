import Cczoe.Net.GatherReads

/-!
# Fixed-size transfers of `stream.cpp` over a socket

`Stream::readFixSize` and `Stream::writeFixSize` repeat a partial transfer until a number of bytes
has moved. Each exists for a raw buffer and for a `ByteArray`; the two raw variants share one loop
(`bufferLoop`), the two `ByteArray` variants another (`arrayLoop`). `SocketStream` supplies the
partial transfers: `send` and `recv` on a raw buffer, `sendmsg` and `recvmsg` on the slices that
`addReadBuffers` and `addWriteBuffers` collect.

The kernel decides how much a call moves: `counts k` is its wish at call `k`, cut to at least one
byte, to what was asked and to the largest transfer of one call. `incoming k` is byte `k` of what
the peer sends. A call on a socket that is not connected returns `-1`.
-/

set_option autoImplicit false
set_option relaxedAutoImplicit false

namespace Cczoe.Net

open Foundations.BlockStorage

/-- `size_t` converted to the returned `int`. -/
def asInt (value : ℕ) : ℤ := (BitVec.ofNat 32 value).toInt

/-- Assumes: a value up to `INT_MAX`. -/
theorem asInt_eq {value : ℕ} (hvalue : value < 2 ^ 31) : asInt value = value := by
  rw [asInt, BitVec.toInt_eq_toNat_cond, BitVec.toNat_ofNat, Nat.mod_eq_of_lt (by omega),
    if_pos (by omega)]

/-- Assumes: a value of 32 bits above `INT_MAX`. -/
theorem asInt_neg {value : ℕ} (hlarge : 2 ^ 31 ≤ value) (hvalue : value < 2 ^ 32) :
    asInt value < 0 := by
  rw [asInt, BitVec.toInt_eq_toNat_cond, BitVec.toNat_ofNat, Nat.mod_eq_of_lt hvalue,
    if_neg (by omega)]
  omega

/-- The largest number of bytes one system call moves, `MAX_RW_COUNT` of the kernel. -/
def maxTransfer : ℕ := 0x7ffff000

/-- The bytes moved by a call that asks for `requested`. -/
def transferred (counts : ℕ → ℕ) (turn requested : ℕ) : ℕ :=
  min requested (min maxTransfer (max 1 (counts turn)))

/-- A socket: the transfers made so far, the bytes put on the wire and the number taken off it. -/
structure Socket where
  connected : Bool
  turn : ℕ
  wire : List UInt8
  received : ℕ
  deriving DecidableEq, Repr

namespace Socket

variable (counts : ℕ → ℕ) (incoming : ℕ → UInt8)

/-- `Socket::send` of a raw buffer. -/
def send (buf : List UInt8) (s : Socket) : ℤ × Socket :=
  if s.connected then
    let count := transferred counts s.turn buf.length
    (count, { s with turn := s.turn + 1, wire := s.wire ++ buf.take count })
  else (-1, s)

/-- `Socket::recv` into room for `len` bytes: the bytes that arrive are handed to the caller. -/
def recv (len : ℕ) (s : Socket) : ℤ × List UInt8 × Socket :=
  if s.connected then
    let count := transferred counts s.turn len
    (count, (List.range count).map fun k ↦ incoming (s.received + k),
      { s with turn := s.turn + 1, received := s.received + count })
  else (-1, [], s)

end Socket

/-! ### Slices of blocks -/

/-- The blocks after `recvmsg` has stored bytes in its slices. -/
def scatter : List UInt8 → List Iovec → List Node → List Node
  | _, [], root => root
  | data, iov :: rest, root =>
    scatter (data.drop iov.len) rest
      (root.modify iov.block fun node ↦ ⟨overwrite node.ptr iov.offset (data.take iov.len)⟩)

/-- The room of a list of slices. -/
def sliceRoom (iovs : List Iovec) : ℕ := (iovs.map Iovec.len).sum

/-! ### `SocketStream` -/

namespace SocketStream

variable (junk : ℕ → ℕ → UInt8) (counts : ℕ → ℕ) (incoming : ℕ → UInt8)

/-- `write(buffer, length)` from an offset of the buffer. -/
def write (buffer : List UInt8) (offset length : ℕ) (s : Socket) : ℤ × Socket :=
  if s.connected then s.send counts ((buffer.drop offset).take length) else (-1, s)

/-- `read(buffer, length)` to an offset of the buffer. -/
def read (offset length : ℕ) (state : List UInt8 × Socket) : ℤ × List UInt8 × Socket :=
  if state.2.connected then
    let (rt, data, s) := state.2.recv counts incoming length
    (rt, overwrite state.1 offset data, s)
  else (-1, state)

/-- `write(barray, length)`. -/
def writeArray (b : ByteArray) (length : ℕ) (s : Socket) : Except Fault (ℤ × Socket) :=
  if s.connected then do
    let (_, iovs) ← b.addReadBuffers length
    return s.send counts (iovs.map b.bytesAt).flatten
  else return (-1, s)

/-- `read(barray, length)`. -/
def readArray (length : ℕ) (state : ByteArray × Socket) :
    Except Fault (ℤ × ByteArray × Socket) :=
  if state.2.connected then
    match ByteArray.addWriteBuffers junk length state.1 with
    | .error fault _ => .error fault
    | .ok (_, iovs) b =>
      let (rt, data, s) := state.2.recv counts incoming (sliceRoom iovs)
      .ok (rt, { b with root := scatter data iovs b.root }, s)
  else .ok (-1, state)

end SocketStream

/-! ### `Stream` -/

/-- The loop of the raw-buffer variants: `offset` counts up and is returned. -/
def bufferLoop {σ : Type} (transfer : ℕ → ℕ → σ → ℤ × σ) (length offset : ℕ) (state : σ) : ℤ × σ :=
  if offset < length then
    let (rt, after) := transfer offset (length - offset) state
    if rt ≤ 0 then (rt, after) else bufferLoop transfer length (offset + rt.toNat) after
  else (asInt offset, state)
termination_by length - offset

/-- The loop of the `ByteArray` variants: `length` counts down and is returned. -/
def arrayLoop {σ : Type} (transfer : ℕ → σ → Except Fault (ℤ × σ)) (length : ℕ) (state : σ) :
    Except Fault (ℤ × σ) :=
  if 0 < length then
    match transfer length state with
    | .error fault => .error fault
    | .ok (rt, after) =>
      if rt ≤ 0 then .ok (rt, after) else arrayLoop transfer (length - rt.toNat) after
  else .ok (asInt length, state)
termination_by length

namespace Stream

variable (junk : ℕ → ℕ → UInt8) (counts : ℕ → ℕ) (incoming : ℕ → UInt8)

/-- `writeFixSize(buffer, length)`. -/
def writeFixSize (buffer : List UInt8) (length : ℕ) (s : Socket) : ℤ × Socket :=
  if length = 0 then (0, s) else bufferLoop (SocketStream.write counts buffer) length 0 s

/-- `readFixSize(buffer, length)`. -/
def readFixSize (buffer : List UInt8) (length : ℕ) (s : Socket) : ℤ × List UInt8 × Socket :=
  if length = 0 then (0, buffer, s)
  else bufferLoop (SocketStream.read counts incoming) length 0 (buffer, s)

/-- `writeFixSize(barray, length)`. -/
def writeFixSizeArray (b : ByteArray) (length : ℕ) (s : Socket) : Except Fault (ℤ × Socket) :=
  if length = 0 then .ok (0, s) else arrayLoop (SocketStream.writeArray counts b) length s

/-- `readFixSize(barray, length)`. -/
def readFixSizeArray (b : ByteArray) (length : ℕ) (s : Socket) :
    Except Fault (ℤ × ByteArray × Socket) :=
  if length = 0 then .ok (0, b, s)
  else arrayLoop (SocketStream.readArray junk counts incoming) length (b, s)

end Stream

end Cczoe.Net
