import Cczoe.Foundations.BlockStorage

/-!
# The block buffer of `bytearray.cpp`

`ByteArray` keeps its bytes in a singly linked list of memory blocks and a cursor into it. The model
holds the blocks reached from `m_root` in list order and the cursor `m_curr` as the number of the
block it points to, `none` for the null pointer. Every loop of the source walks the blocks from the
cursor on, so the loops are recursions over that part of the list.

An operation runs in `ByteArrayM`: it returns a value or stops with a `Fault`, and keeps the buffer
in the state the source leaves it in. A `Fault` is a thrown exception, a dereference of the null
block or a `memcpy` past the end of a block.

Fresh memory is not initialised by the source (`new char[s]`). The parameter `junk` is what it
happens to hold: `junk i k` is byte `k` of the block that becomes number `i` of the list.
Allocation is taken to succeed. Positions and sizes are natural numbers: `m_position ≤ m_size`
holds after every operation that returns, so the subtraction of `getReadableSize` never wraps.
-/

set_option autoImplicit false
set_option relaxedAutoImplicit false

namespace Cczoe.Net

open Foundations.BlockStorage

/-- A byte order, `CCZOE_LITTLE_ENDIAN` or `CCZOE_BIG_ENDIAN`. -/
inductive Endian
  | little
  | big
  deriving DecidableEq, Repr

/-- What stops an operation of `ByteArray`: a thrown `std::out_of_range` with its text, a
dereference of the null block, or a `memcpy` past the end of a block. -/
inductive Fault
  | outOfRange (what : String)
  | nullBlock
  | overrun
  deriving DecidableEq, Repr

/-- A memory block. Its `size` is the number of bytes behind `ptr`. -/
structure Node where
  ptr : List UInt8
  deriving DecidableEq, Repr

namespace Node

/-- The block size the source stores beside the pointer. -/
def size (node : Node) : ℕ := node.ptr.length

/-- `Node(size_t s)`: a block of `s` uninitialised bytes. -/
def alloc (junk : ℕ → UInt8) (s : ℕ) : Node := ⟨(List.range s).map junk⟩

/-- `memcpy(ptr + npos, data, data.size())`. -/
def copyIn (node : Node) (npos : ℕ) (data : List UInt8) : Except Fault Node :=
  if npos + data.length ≤ node.size then .ok ⟨overwrite node.ptr npos data⟩ else .error .overrun

/-- `memcpy(buf, ptr + npos, len)`, as the bytes that reach `buf`. -/
def copyOut (node : Node) (npos len : ℕ) : Except Fault (List UInt8) :=
  if npos + len ≤ node.size then .ok ((node.ptr.drop npos).take len) else .error .overrun

end Node

/-- The members of `ByteArray`. `root` lists the blocks from `m_root` along `next`, and `curr` is
the number of the block `m_curr` points to. -/
structure ByteArray where
  baseSize : ℕ
  position : ℕ
  capacity : ℕ
  size : ℕ
  endian : Endian
  root : List Node
  curr : Option ℕ
  deriving DecidableEq, Repr

/-- An operation on a byte array: a result or a fault, and the byte array afterwards. -/
abbrev ByteArrayM := EStateM Fault ByteArray

/-- A slice of a block, as an `iovec` names it. -/
structure Iovec where
  block : ℕ
  offset : ℕ
  len : ℕ
  deriving DecidableEq, Repr

namespace ByteArray

variable (junk : ℕ → ℕ → UInt8)

/-- `ByteArray(size_t baseSize)`: one block, an empty text, little endian. -/
def ofBaseSize (baseSize : ℕ) : ByteArray where
  baseSize := baseSize
  position := 0
  capacity := baseSize
  size := 0
  endian := .little
  root := [Node.alloc (junk 0) baseSize]
  curr := some 0

def getReadableSize (b : ByteArray) : ℕ := b.size - b.position

def getCapacity (b : ByteArray) : ℕ := b.capacity - b.position

/-- The bytes of all blocks in list order. -/
def text (b : ByteArray) : List UInt8 := (b.root.map Node.ptr).flatten

/-- `setLittleEndian` and `setBigEndian`. -/
def setEndian (endian : Endian) (b : ByteArray) : ByteArray := { b with endian := endian }

/-- `clear`: every block but the first is freed. -/
def clear (b : ByteArray) : ByteArray :=
  { b with position := 0, size := 0, capacity := b.baseSize, root := b.root.take 1, curr := some 0 }

/-- The `next` pointer of block `curr`, where `rest` are the blocks behind it. -/
def next (curr : ℕ) (rest : List Node) : Option ℕ :=
  if rest = [] then none else some (curr + 1)

/-! ### Growing -/

/-- The `for` loop of `addCapacity`. `tmp` is the last block of the list on every turn, and `first`
is assigned `tmp` before `tmp` moves on to the new block. -/
def linkBlocks (baseSize : ℕ) : ℕ → List Node → Option ℕ → List Node × Option ℕ
  | 0, root, first => (root, first)
  | count + 1, root, first =>
    let tmp := root.length - 1
    linkBlocks baseSize count (root ++ [Node.alloc (junk root.length) baseSize])
      (if first = none then some tmp else first)

/-- `addCapacity(size)`. -/
def addCapacity (size : ℕ) (b : ByteArray) : ByteArray :=
  let oldCap := b.getCapacity
  if size = 0 ∨ size ≤ oldCap then b
  else
    let count := size / b.baseSize + if oldCap < size % b.baseSize then 1 else 0
    let linked := linkBlocks junk b.baseSize count b.root none
    { b with
      root := linked.1
      capacity := b.capacity + count * b.baseSize
      curr := if oldCap = 0 then linked.2 else b.curr }

/-! ### Writing -/

/-- The loop of `write` over the blocks from `m_curr` on. It returns these blocks with the bytes
copied in, the new `m_curr` and the new `m_position`. -/
def writeLoop : List Node → ℕ → ℕ → List UInt8 → ℕ → ℕ → Except Fault (List Node × Option ℕ × ℕ)
  | [], _, _, _, _, _ => .error .nullBlock
  | node :: rest, npos, ncap, buf, curr, position =>
    if buf.length ≤ ncap then do
      let filled ← node.copyIn npos buf
      .ok (filled :: rest, if npos + buf.length = node.size then next curr rest else some curr,
        position + buf.length)
    else do
      let filled ← node.copyIn npos (buf.take ncap)
      match rest with
      | [] => .error .nullBlock
      | after :: _ =>
        let (tail, last, stop) ←
          writeLoop rest 0 after.size (buf.drop ncap) (curr + 1) (position + ncap)
        .ok (filled :: tail, last, stop)

/-- `write(buf, size)`. -/
def write (buf : List UInt8) : ByteArrayM Unit := fun old ↦
  if buf = [] then .ok () old
  else
    let b := addCapacity junk buf.length old
    let npos := b.position % b.baseSize
    match b.curr with
    | none => .error .nullBlock b
    | some curr =>
      match writeLoop (b.root.drop curr) npos (b.baseSize - npos) buf curr b.position with
      | .error fault => .error fault b
      | .ok (blocks, last, position) =>
        .ok () { b with
          root := b.root.take curr ++ blocks
          curr := last
          position := position
          size := if b.size < position then position else b.size }

/-! ### Reading -/

/-- The loop of the two `read` functions over the blocks from the cursor on: the bytes copied out,
the new cursor and the new position. -/
def readLoop : List Node → ℕ → ℕ → ℕ → ℕ → ℕ → Except Fault (List UInt8 × Option ℕ × ℕ)
  | [], _, _, _, _, _ => .error .nullBlock
  | node :: rest, npos, ncap, size, curr, position =>
    if size = 0 then .ok ([], some curr, position)
    else if size ≤ ncap then do
      let bytes ← node.copyOut npos size
      .ok (bytes, if node.size = npos + size then next curr rest else some curr, position + size)
    else do
      let bytes ← node.copyOut npos ncap
      match rest with
      | [] => .error .nullBlock
      | after :: _ =>
        let (tail, last, stop) ←
          readLoop rest 0 after.size (size - ncap) (curr + 1) (position + ncap)
        .ok (bytes ++ tail, last, stop)

/-- The walk of both `read` functions from the cursor on. It looks at `m_curr->size` first, also
when nothing is to be read. -/
def readFrom (b : ByteArray) (size start : ℕ) : Except Fault (List UInt8 × Option ℕ × ℕ) :=
  let npos := b.position % b.baseSize
  match b.curr with
  | none => .error .nullBlock
  | some curr =>
    match b.root.drop curr with
    | [] => .error .nullBlock
    | node :: rest => readLoop (node :: rest) npos (node.size - npos) size curr start

/-- `read(buf, size)`. -/
def read (size : ℕ) : ByteArrayM (List UInt8) := fun b ↦
  if b.getReadableSize < size then .error (.outOfRange "read size out of range") b
  else
    match b.readFrom size b.position with
    | .error fault => .error fault b
    | .ok (bytes, last, position) => .ok bytes { b with curr := last, position := position }

/-- `read(buf, size, pos) const`. Its walk starts at `m_position`; `pos` is only counted up. -/
def readAt (size pos : ℕ) (b : ByteArray) : Except Fault (List UInt8) :=
  if b.getReadableSize < size then .error (.outOfRange "read size out of range")
  else
    match b.readFrom size pos with
    | .error fault => .error fault
    | .ok (bytes, _, _) => .ok bytes

/-- `toString`. -/
def toString (b : ByteArray) : Except Fault (List UInt8) :=
  if 0 < b.getReadableSize then b.readAt b.getReadableSize b.position else .ok []

/-! ### Positioning -/

/-- The loop of `setPosition` over the blocks from `m_curr` on. -/
def setPositionLoop : List Node → ℕ → ℕ → Except Fault ℕ
  | [], _, _ => .error .nullBlock
  | node :: rest, curr, pos =>
    if node.size ≤ pos then setPositionLoop rest (curr + 1) (pos - node.size) else .ok curr

/-- `setPosition(pos)`. The walk starts at the old `m_curr`, not at `m_root`. -/
def setPosition (pos : ℕ) : ByteArrayM Unit := fun b ↦
  if b.size < pos then .error (.outOfRange "setPosition out of range") b
  else
    match b.curr with
    | none => .error .nullBlock { b with position := pos }
    | some curr =>
      match setPositionLoop (b.root.drop curr) curr pos with
      | .error fault => .error fault { b with position := pos }
      | .ok last => .ok () { b with position := pos, curr := some last }

/-! ### Scatter and gather -/

/-- The loop of `addWriteBuffers`: the slices appended to `buff` and the new `m_size`. A slice that
ends with its block makes the loop look at the size of the next one. -/
def addWriteBuffersLoop : List Node → ℕ → ℕ → ℕ → ℕ → ℕ → Except Fault (List Iovec × ℕ)
  | [], _, _, _, _, _ => .error .nullBlock
  | _ :: rest, npos, ncap, len, curr, size =>
    if len = 0 then .ok ([], size)
    else if len < ncap then .ok ([⟨curr, npos, len⟩], size + len)
    else
      match rest with
      | [] => .error .nullBlock
      | after :: _ => do
        let (slices, total) ←
          addWriteBuffersLoop rest 0 after.size (len - ncap) (curr + 1) (size + ncap)
        .ok (⟨curr, npos, ncap⟩ :: slices, total)

/-- `addWriteBuffers(buff, len)`: the returned length and the slices appended to `buff`. -/
def addWriteBuffers (len : ℕ) : ByteArrayM (ℕ × List Iovec) := fun old ↦
  if len = 0 then .ok (0, []) old
  else
    let b := addCapacity junk len old
    let npos := b.position % b.baseSize
    match b.curr with
    | none => .error .nullBlock b
    | some curr =>
      match b.root.drop curr with
      | [] => .error .nullBlock b
      | node :: rest =>
        match addWriteBuffersLoop (node :: rest) npos (node.size - npos) len curr b.size with
        | .error fault => .error fault b
        | .ok (slices, size) => .ok (len, slices) { b with size := size }

/-- The loop of `addReadBuffers`. -/
def addReadBuffersLoop : List Node → ℕ → ℕ → ℕ → ℕ → Except Fault (List Iovec)
  | [], _, _, _, _ => .error .nullBlock
  | _ :: rest, npos, ncap, len, curr =>
    if len ≤ ncap then .ok [⟨curr, npos, len⟩]
    else
      match rest with
      | [] => .error .nullBlock
      | after :: _ => do
        let slices ← addReadBuffersLoop rest 0 after.size (len - ncap) (curr + 1)
        .ok (⟨curr, npos, ncap⟩ :: slices)

/-- `addReadBuffers(buff, len) const`: the returned length and the slices appended to `buff`. -/
def addReadBuffers (len : ℕ) (b : ByteArray) : Except Fault (ℕ × List Iovec) :=
  let len := min len b.getReadableSize
  if len = 0 then .ok (0, [])
  else
    let npos := b.position % b.baseSize
    match b.curr with
    | none => .error .nullBlock
    | some curr =>
      match b.root.drop curr with
      | [] => .error .nullBlock
      | node :: rest =>
        match addReadBuffersLoop (node :: rest) npos (node.size - npos) len curr with
        | .error fault => .error fault
        | .ok slices => .ok (len, slices)

end ByteArray

end Cczoe.Net
