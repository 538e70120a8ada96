import Cczoe.Net.GatherReads
import Cczoe.Net.SocketTransfer

/-!
# Const reads and the dump to a file

Two const functions of `bytearray.cpp` copy bytes out without moving the cursor. `read(buf, size,
pos)` is meant to copy from offset `pos`. Its bound and its walk both start from `m_position`, and
`pos` is only counted up, so it delivers what it is for when the two starts make no difference
(`readAt_delivers_iff`); `toString`, its caller, passes `m_position`.

`writeToFile` is meant to write what `toString` returns. Each turn of its loop writes the rest of a
block and subtracts the offset in the block from the length, also when the readable bytes end in
front of the end of the block. `writeToFile_dumps` says when that does no harm.

Both are const: the model gives them no way to change the array.
-/

set_option autoImplicit false
set_option relaxedAutoImplicit false

namespace Cczoe.Net

open Foundations.BlockStorage

namespace ByteArray

/-! ### `read` from an offset -/

/-- What `read(buf, size, pos)` is for: it copies out the bytes at `pos`, and throws when there are
not that many. -/
def Delivers (b : ByteArray) (size pos : ℕ) : Prop :=
  (pos + size ≤ b.size → b.readAt size pos = .ok ((b.text.drop pos).take size)) ∧
    (b.size < pos + size → ∃ what, b.readAt size pos = .error (.outOfRange what))

/-- Assumes: a placed array and at least one byte asked for. `read` from an offset copies out the
bytes at the position, and throws when there are not that many from there on. -/
theorem readAt_eq {b : ByteArray} (hb : Placed b) {size : ℕ} (hsize : 1 ≤ size) (pos : ℕ) :
    b.readAt size pos =
      if b.position + size ≤ b.size then .ok ((b.text.drop b.position).take size)
      else .error (.outOfRange "read size out of range") := by
  have horder := hb.position_le
  have hend := hb.size_le
  by_cases hinside : b.position + size ≤ b.size
  · have hwell : WellFormed b := hb.wellFormed (by omega)
    rw [if_pos hinside, readAt, if_neg (by rw [getReadableSize]; omega)]
    simp only [readFrom_eq hwell (show b.position < b.capacity by omega)
      (show b.position + size ≤ b.capacity by omega)]
  · rw [if_neg hinside, readAt, if_pos (by rw [getReadableSize]; omega)]

/-- Assumes: a placed array and at least one byte asked for. `read` from an offset does what it is
for exactly when the bytes are missing both at the offset and at the position, or are there and the
same. -/
theorem readAt_delivers_iff {b : ByteArray} (hb : Placed b) {size : ℕ} (hsize : 1 ≤ size)
    (pos : ℕ) :
    Delivers b size pos ↔
      (b.size < pos + size ∧ b.size < b.position + size) ∨
        (pos + size ≤ b.size ∧ b.position + size ≤ b.size ∧
          (b.text.drop b.position).take size = (b.text.drop pos).take size) := by
  rw [Delivers, readAt_eq hb hsize]
  by_cases hat : pos + size ≤ b.size
  · by_cases hinside : b.position + size ≤ b.size
    · simp [hat, hinside, Nat.not_lt.mpr hat]
    · simp [hat, hinside, Nat.not_lt.mpr hat]
  · by_cases hinside : b.position + size ≤ b.size
    · simp [hat, hinside, Nat.lt_of_not_le hat]
    · simp [hat, hinside, Nat.lt_of_not_le hat, Nat.lt_of_not_le hinside]

/-- At the position itself. -/
theorem readAt_delivers_inSecondBlock : Delivers { inSecondBlock with size := 4 } 1 3 :=
  (readAt_delivers_iff (b := { inSecondBlock with size := 4 })
    ⟨⟨by decide, by decide⟩, by decide, by decide, by decide, by decide⟩ (by decide) 3).mpr
    (Or.inr ⟨by decide, by decide, rfl⟩)

/-- From the second byte the first byte of the text is out of reach: what comes is the second. -/
theorem not_readAt_delivers_inFirstBlock :
    Placed inFirstBlock ∧ inFirstBlock.readAt 1 0 = .ok [11] ∧ ¬ Delivers inFirstBlock 1 0 := by
  refine ⟨placed_inFirstBlock, rfl, fun hdelivers ↦ ?_⟩
  have hbytes : (Except.ok [11] : Except Fault (List UInt8)) = .ok [10] :=
    hdelivers.1 (by decide)
  exact absurd hbytes (by decide)

/-! ### `writeToFile` -/

/-- `ofs.write(curr->ptr + npos, len)`, as the bytes that reach the file. A range that is not inside
the block, a negative length among them, stops the operation. -/
def fileWrite (node : Node) (npos len : ℤ) : Except Fault (List UInt8) :=
  if 0 ≤ npos ∧ 0 ≤ len ∧ npos + len ≤ node.size then
    .ok ((node.ptr.drop npos.toNat).take len.toNat)
  else .error .overrun

/-- The loop of `writeToFile` over the blocks from `m_curr` on. `npos` is an `int`, so the offset in
the block is converted to 32 bits. -/
def writeToFileLoop (baseSize : ℕ) : List Node → ℕ → ℕ → Except Fault (List UInt8)
  | [], _, readSize => if 0 < readSize then .error .nullBlock else .ok []
  | node :: rest, pos, readSize =>
    if 0 < readSize then do
      let npos := asInt (pos % baseSize)
      let len := ((if baseSize < readSize then baseSize else readSize : ℕ) : ℤ) - npos
      let bytes ← fileWrite node npos len
      let tail ← writeToFileLoop baseSize rest (pos + len.toNat) (readSize - len.toNat)
      .ok (bytes ++ tail)
    else .ok []

/-- `writeToFile`: the returned flag and the bytes in the file, where `opened` is whether the file
could be opened. -/
def writeToFile (opened : Bool) (b : ByteArray) : Except Fault (Bool × List UInt8) :=
  if opened then do
    let blocks := match b.curr with
      | none => []
      | some curr => b.root.drop curr
    let bytes ← writeToFileLoop b.baseSize blocks b.position b.getReadableSize
    .ok (true, bytes)
  else .ok (false, [])

/-- What `writeToFile` is for: into a file it could open it writes what `toString` returns. -/
def Dumps (b : ByteArray) : Prop :=
  ∃ bytes, b.toString = .ok bytes ∧ b.writeToFile true = .ok (true, bytes)

section Loop

variable {baseSize : ℕ}

/-- Assumes: a range inside the block. -/
theorem fileWrite_eq {node : Node} {npos len : ℕ} (hinside : npos + len ≤ node.size) :
    fileWrite node npos len = .ok ((node.ptr.drop npos).take len) := by
  rw [fileWrite, if_pos ⟨by omega, by omega, by omega⟩, Int.toNat_natCast, Int.toNat_natCast]

theorem writeToFileLoop_zero (blocks : List Node) (pos : ℕ) :
    writeToFileLoop baseSize blocks pos 0 = .ok [] := by
  cases blocks with
  | nil => rfl
  | cons node rest => rfl

/-- One turn of the loop that writes `len` bytes. Assumes: an offset that is an `int`. -/
theorem writeToFileLoop_step {node : Node} {rest : List Node} {pos readSize : ℕ} (len : ℕ)
    (hmore : 0 < readSize) (hint : pos % baseSize < 2 ^ 31)
    (hlen : (if baseSize < readSize then baseSize else readSize) = pos % baseSize + len)
    (hinside : pos % baseSize + len ≤ node.size) :
    writeToFileLoop baseSize (node :: rest) pos readSize =
      (do
        let tail ← writeToFileLoop baseSize rest (pos + len) (readSize - len)
        .ok ((node.ptr.drop (pos % baseSize)).take len ++ tail)) := by
  have hlength : ((pos % baseSize + len : ℕ) : ℤ) - ((pos % baseSize : ℕ) : ℤ) = (len : ℤ) := by
    omega
  rw [writeToFileLoop, if_pos hmore]
  simp only [hlen, asInt_eq hint, hlength, fileWrite_eq hinside, Int.toNat_natCast]
  rfl

/-- Assumes: blocks of one size with enough bytes, and a position at the start of the first of them.
The loop writes the bytes from there on. -/
theorem writeToFileLoop_aligned (blocks : List Node) :
    ∀ (pos readSize : ℕ), (∀ node ∈ blocks, node.size = baseSize) → pos % baseSize = 0 →
      readSize ≤ baseSize * blocks.length →
      writeToFileLoop baseSize blocks pos readSize = .ok ((bytesOf blocks).take readSize) := by
  induction blocks with
  | nil =>
    intro pos readSize _ _ hfits
    have hzero : readSize = 0 := by
      rw [List.length_nil, Nat.mul_zero] at hfits
      omega
    rw [hzero, List.take_zero]
    rfl
  | cons node rest ih =>
    intro pos readSize hsizes haligned hfits
    have hnode : node.size = baseSize := hsizes node List.mem_cons_self
    have hptr : node.ptr.length = baseSize := hnode
    have hrest : ∀ other ∈ rest, other.size = baseSize := fun other hother ↦
      hsizes other (List.mem_cons_of_mem _ hother)
    rw [List.length_cons, Nat.mul_succ] at hfits
    by_cases hzero : readSize = 0
    · rw [hzero, List.take_zero]
      rfl
    by_cases hlong : baseSize < readSize
    · have hnext : (pos + baseSize) % baseSize = 0 := by rw [Nat.add_mod_right, haligned]
      rw [writeToFileLoop_step baseSize (by omega) (by omega)
        (by rw [if_pos hlong, haligned, Nat.zero_add]) (by omega),
        ih _ _ hrest hnext (by omega), haligned, List.drop_zero, bytesOf_cons, List.take_append,
        List.take_of_length_le (Nat.le_of_eq hptr),
        List.take_of_length_le (show node.ptr.length ≤ readSize by omega), hptr]
      rfl
    · rw [writeToFileLoop_step readSize (by omega) (by omega)
        (by rw [if_neg hlong, haligned, Nat.zero_add]) (by omega), Nat.sub_self,
        writeToFileLoop_zero, haligned, List.drop_zero, bytesOf_cons,
        List.take_append_of_le_length (by omega)]
      exact congrArg Except.ok (List.append_nil _)

/-- Assumes: blocks of one size, up to 4 GiB, and no more bytes to write than the offset in the
block. The loop does not end well: it writes nothing until it meets a negative length or the null
block. -/
theorem writeToFileLoop_stuck (hbase : baseSize ≤ 2 ^ 32) (blocks : List Node) :
    ∀ (pos readSize : ℕ), (∀ node ∈ blocks, node.size = baseSize) → 0 < readSize →
      readSize ≤ pos % baseSize → pos % baseSize < baseSize →
      ∃ fault, writeToFileLoop baseSize blocks pos readSize = .error fault := by
  induction blocks with
  | nil =>
    intro pos readSize _ hmore _ _
    exact ⟨.nullBlock, if_pos hmore⟩
  | cons node rest ih =>
    intro pos readSize hsizes hmore hbehind hoffset
    have hnode : node.size = baseSize := hsizes node List.mem_cons_self
    have hshort : (if baseSize < readSize then baseSize else readSize) = readSize :=
      if_neg (by omega)
    by_cases hint : pos % baseSize < 2 ^ 31
    · by_cases hzero : readSize = pos % baseSize
      · obtain ⟨fault, hloop⟩ := ih pos readSize
          (fun other hother ↦ hsizes other (List.mem_cons_of_mem _ hother)) hmore hbehind hoffset
        refine ⟨fault, ?_⟩
        rw [writeToFileLoop_step 0 hmore hint (by omega) (by omega), Nat.add_zero, Nat.sub_zero,
          hloop]
        rfl
      · refine ⟨.overrun, ?_⟩
        rw [writeToFileLoop, if_pos hmore]
        simp only [hshort, asInt_eq hint, fileWrite]
        rw [if_neg (by omega)]
        rfl
    · have hnegative := asInt_neg (Nat.le_of_not_lt hint) (by omega)
      refine ⟨.overrun, ?_⟩
      rw [writeToFileLoop, if_pos hmore]
      simp only [fileWrite]
      rw [if_neg (by omega)]
      rfl

end Loop

section Dump

variable {b : ByteArray}

/-- The walk of `writeToFile` starts at the block of the position. -/
theorem writeToFile_eq (hb : Placed b) (hreadable : 0 < b.getReadableSize) :
    b.writeToFile true = (do
      let bytes ← writeToFileLoop b.baseSize (b.root.drop (b.position / b.baseSize)) b.position
        b.getReadableSize
      .ok (true, bytes)) := by
  have hposition := hb.position_lt hreadable
  have hcurr : b.curr = some (b.position / b.baseSize) := by
    rw [hb.curr_eq, if_neg (by omega)]
  rw [writeToFile, if_pos rfl, hcurr]

/-- Nothing is readable, the position is at the start of a block, or the readable bytes fill a block
at least and the offset in the block is an `int`. -/
def DumpStarts (b : ByteArray) : Prop :=
  b.getReadableSize = 0 ∨ b.position % b.baseSize = 0 ∨
    (b.baseSize ≤ b.getReadableSize ∧ b.position % b.baseSize < 2 ^ 31)

/-- The blocks from that of the position on. -/
structure BlocksFrom (b : ByteArray) (node : Node) (rest : List Node) : Prop where
  drop_eq : b.root.drop (b.position / b.baseSize) = node :: rest
  sizes : ∀ other ∈ node :: rest, other.size = b.baseSize
  text_eq : b.text.drop b.position = (bytesOf (node :: rest)).drop (b.position % b.baseSize)
  fits : b.position % b.baseSize + b.getReadableSize ≤ b.baseSize * (node :: rest).length

theorem Placed.blocksFrom (hb : Placed b) (hreadable : 0 < b.getReadableSize) :
    ∃ node rest, BlocksFrom b node rest := by
  have hposition := hb.position_lt hreadable
  have hcapacity := hb.capacity_eq
  have hsize := hb.size_le
  have hsplit : b.baseSize * (b.position / b.baseSize) + b.position % b.baseSize = b.position :=
    Nat.div_add_mod _ _
  have hblock : b.position / b.baseSize < b.root.length :=
    Nat.div_lt_of_lt_mul (by omega)
  obtain ⟨node, rest, hdrop⟩ := List.exists_cons_of_ne_nil
    (show b.root.drop (b.position / b.baseSize) ≠ [] by
      rw [Ne, List.drop_eq_nil_iff]
      omega)
  refine ⟨node, rest, hdrop, fun other hother ↦ hb.block_size other
    (List.mem_of_mem_drop (hdrop ▸ hother)), ?_, ?_⟩
  · rw [← hdrop, bytesOf_drop hb.block_size hblock.le, List.drop_drop, hsplit, text_eq_bytesOf]
  · rw [← hdrop, List.length_drop, Nat.mul_sub, getReadableSize]
    omega

/-- Assumes: a placed array whose dump starts well. `writeToFile` writes the readable bytes. -/
theorem writeToFile_of_starts (hb : Placed b) (hstarts : DumpStarts b) : Dumps b := by
  refine ⟨_, toString_eq hb, ?_⟩
  by_cases hzero : b.getReadableSize = 0
  · rw [writeToFile, if_pos rfl, hzero, List.take_zero]
    simp only [writeToFileLoop_zero]
    rfl
  have hreadable : 0 < b.getReadableSize := Nat.pos_of_ne_zero hzero
  obtain ⟨node, rest, hblocks⟩ := hb.blocksFrom hreadable
  have hptr : node.ptr.length = b.baseSize := hblocks.sizes node List.mem_cons_self
  have hfits := hblocks.fits
  have hoffset : b.position % b.baseSize < b.baseSize := Nat.mod_lt _ hb.baseSize_pos
  rw [writeToFile_eq hb hreadable, hblocks.drop_eq, hblocks.text_eq]
  by_cases haligned : b.position % b.baseSize = 0
  · rw [writeToFileLoop_aligned (node :: rest) _ _ hblocks.sizes haligned (by omega), haligned,
      List.drop_zero]
    rfl
  obtain ⟨hlong, hint⟩ : b.baseSize ≤ b.getReadableSize ∧ b.position % b.baseSize < 2 ^ 31 :=
    (hstarts.resolve_left hzero).resolve_left haligned
  -- the rest of the first block, and the other blocks from their starts
  have hnext : (b.position + (b.baseSize - b.position % b.baseSize)) % b.baseSize = 0 := by
    have hsplit : b.baseSize * (b.position / b.baseSize) + b.position % b.baseSize = b.position :=
      Nat.div_add_mod _ _
    have hend : b.position + (b.baseSize - b.position % b.baseSize) =
        b.baseSize * (b.position / b.baseSize + 1) := by
      rw [Nat.mul_succ]
      omega
    rw [hend, Nat.mul_mod_right]
  rw [List.length_cons, Nat.mul_succ] at hfits
  have hlen : (if b.baseSize < b.getReadableSize then b.baseSize else b.getReadableSize) =
      b.position % b.baseSize + (b.baseSize - b.position % b.baseSize) := by
    split_ifs <;> omega
  have hfirst : (node.ptr.drop (b.position % b.baseSize)).take
      (b.baseSize - b.position % b.baseSize) = node.ptr.drop (b.position % b.baseSize) :=
    List.take_of_length_le (by rw [List.length_drop, hptr])
  rw [writeToFileLoop_step (b.baseSize - b.position % b.baseSize) hreadable hint hlen
    (by rw [Node.size]; omega),
    writeToFileLoop_aligned rest _ _
      (fun other hother ↦ hblocks.sizes other (List.mem_cons_of_mem _ hother)) hnext (by omega),
    hfirst, bytesOf_cons, List.drop_append_of_le_length (by omega), take_past_block hptr (by omega)]
  rfl

/-- Assumes: a placed array of blocks up to 4 GiB whose dump does not start well. `writeToFile` asks
for bytes in front of or behind a block, or looks at the null block. -/
theorem writeToFile_not_starts (hb : Placed b) (hbase : b.baseSize ≤ 2 ^ 32)
    (hstarts : ¬ DumpStarts b) : ¬ Dumps b := by
  obtain ⟨hzero, hother⟩ := not_or.mp hstarts
  obtain ⟨hunaligned, hwrong⟩ := not_or.mp hother
  have hreadable : 0 < b.getReadableSize := Nat.pos_of_ne_zero hzero
  obtain ⟨node, rest, hblocks⟩ := hb.blocksFrom hreadable
  have hnode : node.size = b.baseSize := hblocks.sizes node List.mem_cons_self
  have hrest : ∀ other ∈ rest, other.size = b.baseSize := fun other hother ↦
    hblocks.sizes other (List.mem_cons_of_mem _ hother)
  have hoffset : b.position % b.baseSize < b.baseSize := Nat.mod_lt _ hb.baseSize_pos
  have hfaults : ∃ fault, writeToFileLoop b.baseSize (node :: rest) b.position b.getReadableSize =
      .error fault := by
    by_cases hbehind : b.getReadableSize ≤ b.position % b.baseSize
    · exact writeToFileLoop_stuck hbase (node :: rest) _ _ hblocks.sizes hreadable hbehind hoffset
    by_cases hint : b.position % b.baseSize < 2 ^ 31
    · -- the first turn leaves as many bytes as the offset, at an offset larger than that
      have hshort : b.getReadableSize < b.baseSize := by
        by_contra hlong
        exact hwrong ⟨Nat.le_of_not_lt hlong, hint⟩
      obtain ⟨len, hlen⟩ : ∃ len, b.getReadableSize = b.position % b.baseSize + len :=
        ⟨b.getReadableSize - b.position % b.baseSize, by omega⟩
      have hmod : (b.position + len) % b.baseSize = b.getReadableSize := by
        have hsplit : b.baseSize * (b.position / b.baseSize) + b.position % b.baseSize =
            b.position := Nat.div_add_mod _ _
        have hend : b.position + len =
            b.getReadableSize + b.baseSize * (b.position / b.baseSize) := by omega
        rw [hend, Nat.add_mul_mod_self_left, Nat.mod_eq_of_lt hshort]
      obtain ⟨fault, hloop⟩ := writeToFileLoop_stuck hbase rest (b.position + len)
        (b.getReadableSize - len) hrest (by omega) (by omega) (by omega)
      refine ⟨fault, ?_⟩
      rw [writeToFileLoop_step len hreadable hint (by rw [if_neg (by omega), hlen]) (by omega),
        hloop]
      rfl
    · have hnegative := asInt_neg (Nat.le_of_not_lt hint) (by omega)
      refine ⟨.overrun, ?_⟩
      rw [writeToFileLoop, if_pos hreadable]
      simp only [fileWrite]
      rw [if_neg (by omega)]
      rfl
  obtain ⟨fault, hloop⟩ := hfaults
  rintro ⟨bytes, -, hdump⟩
  rw [writeToFile_eq hb hreadable, hblocks.drop_eq, hloop] at hdump
  cases hdump

/-- Assumes: a placed array. `writeToFile` writes what `toString` returns when nothing is readable,
the position is at the start of a block, or the readable bytes fill a block at least, with the
offset in the block an `int`; and with blocks up to 4 GiB only then. -/
theorem writeToFile_dumps (hb : Placed b) :
    (DumpStarts b → Dumps b) ∧ (b.baseSize ≤ 2 ^ 32 → Dumps b → DumpStarts b) := by
  refine ⟨writeToFile_of_starts hb, fun hbase hdumps ↦ ?_⟩
  by_contra hstarts
  exact writeToFile_not_starts hb hbase hstarts hdumps

end Dump

/-- Three blocks of two bytes, with two of the three readable bytes behind the first block. -/
def acrossThree : ByteArray where
  baseSize := 2
  position := 1
  capacity := 6
  size := 5
  endian := .little
  root := [⟨[10, 11]⟩, ⟨[12, 13]⟩, ⟨[14, 0]⟩]
  curr := some 0

theorem placed_acrossThree : Placed acrossThree :=
  ⟨⟨by decide, by decide⟩, by decide, by decide, by decide, by decide⟩

theorem dumps_acrossThree : Dumps acrossThree :=
  (writeToFile_dumps placed_acrossThree).1 (Or.inr (Or.inr ⟨by decide, by decide⟩))

/-- One readable byte, the last of its block: the length comes out as zero on every turn, and the
walk ends at the null block. -/
theorem not_dumps_lastByte :
    Placed { acrossThree with size := 2 } ∧
      { acrossThree with size := 2 }.toString = .ok [11] ∧
      { acrossThree with size := 2 }.writeToFile true = .error .nullBlock ∧
      ¬ Dumps { acrossThree with size := 2 } := by
  have hnull : { acrossThree with size := 2 }.writeToFile true = .error .nullBlock := rfl
  refine ⟨⟨⟨by decide, by decide⟩, by decide, by decide, by decide, by decide⟩, rfl, hnull, ?_⟩
  rintro ⟨bytes, -, hdump⟩
  rw [hnull] at hdump
  cases hdump

end ByteArray

end Cczoe.Net
