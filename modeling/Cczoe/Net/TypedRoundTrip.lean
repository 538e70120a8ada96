import Cczoe.Net.Positioning
import Cczoe.Net.SequentialWrites
import Cczoe.Net.TypedValues
import Mathlib.Algebra.Order.BigOperators.Group.List
import Mathlib.Tactic.Ring

/-!
# Typed values read back

Every typed writer of `ByteArray` followed by its reader returns the value. The bytes of a value are
`Value.encode`; a writer appends them to the text (`appends_writeValue`) and the reader of the same
kind takes exactly them off the readable bytes and returns the value (`reads_readValue`). Lists of
values follow by induction, and `readValues_writeValues` is the round trip through a fresh array and
`setPosition(0)`.

The block is larger than all bytes written, so the array never grows and the cursor stays on a
block.
-/

set_option autoImplicit false
set_option relaxedAutoImplicit false

namespace Cczoe.Net

open Foundations.BlockStorage Foundations.ByteNumerals

/-! ### Integers in memory -/

section Codes

variable {w : ℕ} (host : Endian)

theorem hostOrder_hostOrder (bytes : List UInt8) :
    hostOrder host (hostOrder host bytes) = bytes := by
  cases host with
  | little => rfl
  | big => exact List.reverse_reverse bytes

theorem length_hostOrder (bytes : List UInt8) : (hostOrder host bytes).length = bytes.length := by
  cases host with
  | little => rfl
  | big => exact List.length_reverse

theorem length_store (value : BitVec w) : (store host value).length = w / 8 := by
  rw [store, length_hostOrder, length_littleEndian]

theorem pow_bytes (hw : 8 ∣ w) : 256 ^ (w / 8) = 2 ^ w := by
  have hbytes : (256 : ℕ) = 2 ^ 8 := rfl
  rw [hbytes, ← pow_mul, Nat.mul_div_cancel' hw]

/-- Assumes: a whole number of bytes. An integer is read back from its bytes in memory. -/
theorem load_store (hw : 8 ∣ w) (value : BitVec w) : load host w (store host value) = value := by
  rw [load, store, hostOrder_hostOrder, ofLittleEndian_littleEndian, pow_bytes hw,
    Nat.mod_eq_of_lt value.isLt, BitVec.ofNat_toNat, BitVec.setWidth_eq]

/-- Assumes: a whole number of bytes. The bytes of the swapped integer are those of the integer the
other way round. -/
theorem littleEndian_bswap (hw : 8 ∣ w) (value : BitVec w) :
    littleEndian (w / 8) (bswap value).toNat = (littleEndian (w / 8) value.toNat).reverse := by
  have hlength : (littleEndian (w / 8) value.toNat).reverse.length = w / 8 := by
    rw [List.length_reverse, length_littleEndian]
  have hbound := ofLittleEndian_lt (littleEndian (w / 8) value.toNat).reverse
  have hdigits := littleEndian_ofLittleEndian (littleEndian (w / 8) value.toNat).reverse
  rw [hlength, pow_bytes hw] at hbound
  rw [hlength] at hdigits
  rw [bswap, BitVec.toNat_ofNat, Nat.mod_eq_of_lt hbound, hdigits]

/-- Assumes: a whole number of bytes. Swapping the bytes twice gives the integer back. -/
theorem bswap_bswap (hw : 8 ∣ w) (value : BitVec w) : bswap (bswap value) = value := by
  rw [bswap, littleEndian_bswap hw, List.reverse_reverse, ofLittleEndian_littleEndian,
    pow_bytes hw, Nat.mod_eq_of_lt value.isLt, BitVec.ofNat_toNat, BitVec.setWidth_eq]

theorem byteswap_byteswap (hw : 8 ∣ w) (sign : Signedness) (value : BitVec w) :
    byteswap sign (byteswap sign value) = value := by
  cases sign with
  | signed => rfl
  | unsigned => exact bswap_bswap hw value

end Codes

/-! ### Zigzag and varints -/

theorem toNat_numeral {w k : ℕ} (hk : k < 2 ^ w) : (BitVec.ofNat w k).toNat = k := by
  rw [BitVec.toNat_ofNat, Nat.mod_eq_of_lt hk]

/-- The code of a negative number is odd. Assumes: at least two bits. -/
theorem toNat_encodeZigzag_of_neg {w : ℕ} (hw : 1 < w) {v : BitVec w} (hneg : v.msb = true) :
    (encodeZigzag v).toNat = 2 * (2 ^ w - v.toNat) - 1 := by
  have hlarge : 2 ^ w ≤ 2 * v.toNat := BitVec.msb_eq_true_iff_two_mul_ge.mp hneg
  have hlt := v.isLt
  have hfour : 2 ^ 2 ≤ 2 ^ w := Nat.pow_le_pow_right (by omega) hw
  have hslt : v.slt 0#w = true := by rw [← hneg]; exact BitVec.slt_zero_eq_msb
  have htwo : (2#w).toNat = 2 := toNat_numeral (by omega)
  have hone : (1#w).toNat = 1 := toNat_numeral (by omega)
  rw [encodeZigzag, if_pos hslt, BitVec.toNat_sub, BitVec.toNat_mul, BitVec.toNat_neg, htwo, hone,
    Nat.mod_eq_of_lt (show 2 ^ w - v.toNat < 2 ^ w by omega)]
  generalize 2 ^ w = modulus at *
  by_cases hhalf : (modulus - v.toNat) * 2 = modulus
  · rw [hhalf, Nat.mod_self, Nat.mod_eq_of_lt (by omega)]
    omega
  · rw [Nat.mod_eq_of_lt (show (modulus - v.toNat) * 2 < modulus by omega),
      Nat.mod_eq_sub_mod (by omega), Nat.mod_eq_of_lt (by omega)]
    omega

/-- The code of any other number is even. Assumes: at least two bits. -/
theorem toNat_encodeZigzag_of_nonneg {w : ℕ} (hw : 1 < w) {v : BitVec w} (hpos : v.msb = false) :
    (encodeZigzag v).toNat = 2 * v.toNat := by
  have hsmall : 2 * v.toNat < 2 ^ w := BitVec.msb_eq_false_iff_two_mul_lt.mp hpos
  have hfour : 2 ^ 2 ≤ 2 ^ w := Nat.pow_le_pow_right (by omega) hw
  have hslt : ¬ v.slt 0#w = true := by
    rw [show v.slt 0#w = v.msb from BitVec.slt_zero_eq_msb, hpos]
    exact Bool.false_ne_true
  have htwo : (2#w).toNat = 2 := toNat_numeral (by omega)
  rw [encodeZigzag, if_neg hslt, BitVec.toNat_mul, htwo, Nat.mod_eq_of_lt (by omega)]
  omega

theorem toNat_and_one {w : ℕ} (hw : 1 < w) (v : BitVec w) : (v &&& 1#w).toNat = v.toNat % 2 := by
  have hone : (1#w).toNat = 1 := toNat_numeral (Nat.one_lt_two_pow (by omega))
  rw [BitVec.toNat_and, hone, Nat.and_one_is_mod]

theorem decodeZigzag_of_even {w : ℕ} (hw : 1 < w) {v : BitVec w} (heven : v.toNat % 2 = 0) :
    decodeZigzag v = v >>> 1 := by
  have hbit : v &&& 1#w = 0#w := by
    apply BitVec.eq_of_toNat_eq
    rw [toNat_and_one hw, heven]
    rfl
  rw [decodeZigzag, hbit, BitVec.neg_zero]
  exact BitVec.xor_zero

theorem decodeZigzag_of_odd {w : ℕ} (hw : 1 < w) {v : BitVec w} (hodd : v.toNat % 2 = 1) :
    decodeZigzag v = ~~~(v >>> 1) := by
  have hbit : v &&& 1#w = 1#w := by
    apply BitVec.eq_of_toNat_eq
    rw [toNat_and_one hw, hodd]
    exact (Nat.mod_eq_of_lt (Nat.one_lt_two_pow (by omega))).symm
  rw [decodeZigzag, hbit]
  rw [BitVec.neg_one_eq_allOnes, BitVec.xor_allOnes]

/-- `DecodeZigzag` undoes `EncodeZigzag`, in two's-complement arithmetic. Assumes: at least two
bits. -/
theorem decodeZigzag_encodeZigzag {w : ℕ} (hw : 1 < w) (v : BitVec w) :
    decodeZigzag (encodeZigzag v) = v := by
  apply BitVec.eq_of_toNat_eq
  have hlt := v.isLt
  cases hsign : v.msb with
  | true =>
    have hcode := toNat_encodeZigzag_of_neg hw hsign
    rw [decodeZigzag_of_odd hw (by omega), BitVec.toNat_not, BitVec.toNat_ushiftRight, hcode,
      Nat.shiftRight_eq_div_pow]
    omega
  | false =>
    have hcode := toNat_encodeZigzag_of_nonneg hw hsign
    rw [decodeZigzag_of_even hw (by omega), BitVec.toNat_ushiftRight, hcode,
      Nat.shiftRight_eq_div_pow]
    omega

theorem toNat_and_low {w : ℕ} (hw : 8 ≤ w) (value : BitVec w) :
    (value &&& 0x7f#w).toNat = value.toNat % 128 := by
  have hpow : 2 ^ 8 ≤ 2 ^ w := Nat.pow_le_pow_right (by omega) hw
  have hmask : (0x7f#w).toNat = 2 ^ 7 - 1 := toNat_numeral (by omega)
  rw [BitVec.toNat_and, hmask, Nat.and_two_pow_sub_one_eq_mod]

theorem toNat_group {w : ℕ} (hw : 8 ≤ w) (value : BitVec w) :
    ((value &&& 0x7f#w) ||| 0x80#w).toNat = value.toNat % 128 + 128 := by
  have hpow : 2 ^ 8 ≤ 2 ^ w := Nat.pow_le_pow_right (by omega) hw
  have hmask : (0x80#w).toNat = 2 ^ 7 * 1 := toNat_numeral (by omega)
  have hlow : value.toNat % 128 < 2 ^ 7 := Nat.mod_lt _ (by omega)
  rw [BitVec.toNat_or, toNat_and_low hw, hmask, Nat.or_comm, ← Nat.two_pow_add_eq_or_of_lt hlow]
  omega

/-- The loop of the varint writers emits the seven-bit groups. Assumes: at least eight bits. -/
theorem varintBytes_eq {w : ℕ} (hw : 8 ≤ w) (value : BitVec w) :
    varintBytes value = base128 value.toNat := by
  induction value using varintBytes.induct with
  | case1 value hlarge ih =>
    rw [varintBytes, if_pos hlarge, base128_of_le hlarge, toNat_group hw, ih,
      BitVec.toNat_ushiftRight, Nat.shiftRight_eq_div_pow]
  | case2 value hsmall =>
    rw [varintBytes, if_neg hsmall, base128_of_lt (by omega)]

/-! ### Sequencing -/

theorem bind_ok {α β : Type} {x : ByteArrayM α} {f : α → ByteArrayM β} {a : α} {b after : ByteArray}
    (hx : x b = .ok a after) : (x >>= f) b = f a after := by
  simp only [bind, EStateM.bind, hx]

theorem map_ok {α β : Type} (f : α → β) {x : ByteArrayM α} {a : α} {b after : ByteArray}
    (hx : x b = .ok a after) : (f <$> x) b = .ok (f a) after := by
  simp only [Functor.map, EStateM.map, hx]

namespace ByteArray

variable (junk : ℕ → ℕ → UInt8) (host : Endian)

/-! ### Filling one block -/

/-- An array of one block of `baseSize` bytes that holds `written` and nothing else. -/
structure Filling (b : ByteArray) (baseSize : ℕ) (endian : Endian) (written : List UInt8) :
    Prop where
  seated : Seated b written
  baseSize_eq : b.baseSize = baseSize
  endian_eq : b.endian = endian
  free_eq : b.getCapacity + written.length = baseSize

theorem filling_ofBaseSize {baseSize : ℕ} (hbase : 0 < baseSize) (endian : Endian) :
    Filling ((ofBaseSize junk baseSize).setEndian endian) baseSize endian [] where
  seated := by
    obtain ⟨⟨⟨⟨hpos, hcapacity⟩, hposition⟩, hroot, hblocks⟩, hcurr, hstart, hsize, htext⟩ :=
      seated_ofBaseSize junk hbase
    exact ⟨⟨⟨⟨hpos, hcapacity⟩, hposition⟩, hroot, hblocks⟩, hcurr, hstart, hsize, htext⟩
  baseSize_eq := rfl
  endian_eq := rfl
  free_eq := rfl

/-- Assumes: the bytes leave room in the block. `write` appends them. -/
theorem Filling.write {b : ByteArray} {baseSize : ℕ} {endian : Endian} {written : List UInt8}
    (hfilling : Filling b baseSize endian written) {bytes : List UInt8}
    (hroom : written.length + bytes.length < baseSize) :
    ∃ after, ByteArray.write junk bytes b = .ok () after ∧
      Filling after baseSize endian (written ++ bytes) := by
  have hfree := hfilling.free_eq
  obtain ⟨after, hwrite, hseated, hbase, hendian, hcapacity⟩ :=
    hfilling.seated.write junk (show bytes ≠ [] → b.getCapacity ≠ 0 from fun _ ↦ by omega)
  refine ⟨after, hwrite, hseated, hbase.trans hfilling.baseSize_eq,
    hendian.trans hfilling.endian_eq, ?_⟩
  rw [hcapacity, room, if_pos (by omega), List.length_append]
  omega

/-! ### Reading it back -/

/-- The readable bytes are `pending`, and the cursor stays on a block while they are read. -/
structure Reading (b : ByteArray) (endian : Endian) (pending : List UInt8) : Prop where
  wellFormed : WellFormed b
  size_lt : b.size < b.capacity
  endian_eq : b.endian = endian
  pending_eq : (b.text.drop b.position).take (b.size - b.position) = pending

theorem Reading.length_eq {b : ByteArray} {endian : Endian} {pending : List UInt8}
    (hreading : Reading b endian pending) : b.size = b.position + pending.length := by
  have hposition := hreading.wellFormed.position_le
  have hsize := hreading.wellFormed.size_le
  have htext := hreading.wellFormed.shaped.length_text
  rw [← hreading.pending_eq, List.length_take, List.length_drop]
  omega

/-- `read` takes the first bytes off the readable ones. -/
theorem Reading.read {b : ByteArray} {endian : Endian} {bytes rest : List UInt8}
    (hreading : Reading b endian (bytes ++ rest)) :
    ∃ after, ByteArray.read bytes.length b = .ok bytes after ∧ Reading after endian rest := by
  have hlength := hreading.length_eq
  have hsize := hreading.size_lt
  rw [List.length_append] at hlength
  have hbytes : (b.text.drop b.position).take bytes.length = bytes := by
    have htake : ((b.text.drop b.position).take (b.size - b.position)).take bytes.length =
        bytes := by rw [hreading.pending_eq, List.take_left]
    rwa [List.take_take, Nat.min_eq_left (by omega)] at htake
  refine ⟨{ b with
    position := b.position + bytes.length
    curr := seat b.baseSize b.root.length (b.position + bytes.length) }, ?_, ?_⟩
  · rw [read_eq hreading.wellFormed (by omega) (by omega), hbytes]
  · refine ⟨hreading.wellFormed.move (by omega), hsize, hreading.endian_eq, ?_⟩
    have hdrop :
        ((b.text.drop b.position).take (b.size - b.position)).drop bytes.length = rest := by
      rw [hreading.pending_eq, List.drop_left]
    rw [List.drop_take, List.drop_drop] at hdrop
    change (b.text.drop (b.position + bytes.length)).take
      (b.size - (b.position + bytes.length)) = rest
    rw [← hdrop, Nat.sub_add_eq]

theorem Filling.placed {b : ByteArray} {baseSize : ℕ} {endian : Endian} {written : List UInt8}
    (hfilling : Filling b baseSize endian written) : Placed b where
  toMeasured := hfilling.seated.shaped.toMeasured
  block_size := hfilling.seated.shaped.block_size
  position_le := by rw [hfilling.seated.position_eq, hfilling.seated.size_eq]
  size_le := by
    rw [hfilling.seated.size_eq, ← hfilling.seated.position_eq]
    exact hfilling.seated.shaped.position_le
  curr_eq := by
    rw [hfilling.seated.curr_eq, seat, hfilling.seated.shaped.capacity_eq]

/-- Assumes: a byte of the block is still free, and a position in the text. `setPosition` goes to
it, and the bytes from there on are readable. -/
theorem Filling.setPosition_to {b : ByteArray} {baseSize : ℕ} {endian : Endian}
    {written : List UInt8} (hfilling : Filling b baseSize endian written)
    (hroom : written.length < baseSize) {pos : ℕ} (hpos : pos ≤ written.length) :
    ∃ after, ByteArray.setPosition pos b = .ok () after ∧
      Reading after endian (written.drop pos) := by
  have hposition := hfilling.seated.position_eq
  have hsize := hfilling.seated.size_eq
  have hfree := hfilling.free_eq
  rw [getCapacity] at hfree
  have hcapacity : b.capacity = baseSize := by
    have hle := hfilling.seated.shaped.position_le
    omega
  have hinside : pos < b.capacity := by omega
  refine ⟨_, setPosition_of_first hfilling.placed (by omega)
    (by rw [hfilling.baseSize_eq]; omega) hinside, ?_, ?_, hfilling.endian_eq, ?_⟩
  · have hwell : WellFormed b := hfilling.placed.wellFormed (by omega)
    have hmoved := hwell.move (show pos ≤ b.size by omega)
    rwa [seat, ← hwell.capacity_eq, if_neg (by omega)] at hmoved
  · dsimp only
    omega
  · change (b.text.drop pos).take (b.size - pos) = written.drop pos
    rw [hsize, ← List.drop_take, hfilling.seated.text_take]

/-- The array that was filled is read from its start after `setPosition(0)`. Assumes: a byte of the
block is still free. -/
theorem Filling.setPosition {b : ByteArray} {baseSize : ℕ} {endian : Endian} {written : List UInt8}
    (hfilling : Filling b baseSize endian written) (hroom : written.length < baseSize) :
    ∃ after, ByteArray.setPosition 0 b = .ok () after ∧ Reading after endian written := by
  obtain ⟨after, hposition, hreading⟩ := hfilling.setPosition_to hroom (Nat.zero_le _)
  exact ⟨after, hposition, by rwa [List.drop_zero] at hreading⟩

/-! ### Writers and readers that match -/

/-- The writer appends `bytes` to an array whose block has room for them. -/
def Appends (baseSize : ℕ) (endian : Endian) (x : ByteArrayM Unit) (bytes : List UInt8) : Prop :=
  ∀ (b : ByteArray) (written : List UInt8), Filling b baseSize endian written →
    written.length + bytes.length < baseSize →
    ∃ after, x b = .ok () after ∧ Filling after baseSize endian (written ++ bytes)

/-- The reader takes `bytes` off the readable bytes and returns `value`. -/
def Reads {α : Type} (endian : Endian) (x : ByteArrayM α) (bytes : List UInt8) (value : α) : Prop :=
  ∀ (b : ByteArray) (rest : List UInt8), Reading b endian (bytes ++ rest) →
    ∃ after, x b = .ok value after ∧ Reading after endian rest

theorem appends_write (baseSize : ℕ) (endian : Endian) (bytes : List UInt8) :
    Appends baseSize endian (ByteArray.write junk bytes) bytes :=
  fun _ _ hfilling hroom ↦ hfilling.write junk hroom

theorem appends_pure (baseSize : ℕ) (endian : Endian) : Appends baseSize endian (pure ()) [] := by
  intro b written hfilling _
  refine ⟨b, rfl, ?_⟩
  rwa [List.append_nil]

/-- Writers one after the other append their bytes one after the other. -/
theorem Appends.bind {baseSize : ℕ} {endian : Endian} {x y : ByteArrayM Unit}
    {bytes more : List UInt8} (hx : Appends baseSize endian x bytes)
    (hy : Appends baseSize endian y more) :
    Appends baseSize endian (x >>= fun _ ↦ y) (bytes ++ more) := by
  intro b written hfilling hroom
  rw [List.length_append] at hroom
  obtain ⟨middle, hfirst, hmiddle⟩ := hx b written hfilling (by omega)
  obtain ⟨after, hsecond, hafter⟩ := hy middle (written ++ bytes) hmiddle
    (by rw [List.length_append]; omega)
  refine ⟨after, ?_, ?_⟩
  · rw [bind_ok hfirst, hsecond]
  · rwa [← List.append_assoc]

theorem reads_read (endian : Endian) (bytes : List UInt8) :
    Reads endian (ByteArray.read bytes.length) bytes bytes :=
  fun _ _ hreading ↦ hreading.read

theorem reads_pure {α : Type} (endian : Endian) (value : α) : Reads endian (pure value) [] value :=
  fun b _ hreading ↦ ⟨b, rfl, hreading⟩

/-- Readers one after the other take off the bytes one after the other. -/
theorem Reads.bind {α β : Type} {endian : Endian} {x : ByteArrayM α} {f : α → ByteArrayM β}
    {bytes more : List UInt8} {value : α} {result : β} (hx : Reads endian x bytes value)
    (hf : Reads endian (f value) more result) : Reads endian (x >>= f) (bytes ++ more) result := by
  intro b rest hreading
  rw [List.append_assoc] at hreading
  obtain ⟨middle, hfirst, hmiddle⟩ := hx b (more ++ rest) hreading
  obtain ⟨after, hsecond, hafter⟩ := hf middle rest hmiddle
  exact ⟨after, (bind_ok hfirst).trans hsecond, hafter⟩

theorem Reads.map {α β : Type} {endian : Endian} {x : ByteArrayM α} {bytes : List UInt8} {value : α}
    (f : α → β) (hx : Reads endian x bytes value) : Reads endian (f <$> x) bytes (f value) := by
  intro b rest hreading
  obtain ⟨after, hread, hafter⟩ := hx b rest hreading
  exact ⟨after, map_ok f hread, hafter⟩

/-! ### Integers -/

/-- The bytes of a fixed-width integer under a byte order of the array. -/
def fixedBytes {w : ℕ} (endian : Endian) (sign : Signedness) (value : BitVec w) : List UInt8 :=
  store host (if endian ≠ host then byteswap sign value else value)

theorem length_fixedBytes {w : ℕ} (endian : Endian) (sign : Signedness) (value : BitVec w) :
    (fixedBytes host endian sign value).length = w / 8 := length_store host _

/-- Assumes: a byte order of the array. The writer appends the bytes of the integer. -/
theorem appends_writeFixed {w : ℕ} (baseSize : ℕ) (endian : Endian) (sign : Signedness)
    (value : BitVec w) :
    Appends baseSize endian (ByteArray.writeFixed junk host sign value)
      (fixedBytes host endian sign value) := by
  intro b written hfilling hroom
  have hbody : ByteArray.writeFixed junk host sign value b =
      ByteArray.write junk (fixedBytes host endian sign value) b := by
    rw [← hfilling.endian_eq]
    rfl
  rw [hbody]
  exact hfilling.write junk hroom

/-- Assumes: a whole number of bytes. The reader of the same width and sign returns the integer. -/
theorem reads_readFixed {w : ℕ} (hw : 8 ∣ w) (endian : Endian) (sign : Signedness)
    (value : BitVec w) :
    Reads endian (ByteArray.readFixed host sign w) (fixedBytes host endian sign value) value := by
  intro b rest hreading
  obtain ⟨after, hread, hafter⟩ := hreading.read
  refine ⟨after, ?_, hafter⟩
  rw [length_fixedBytes] at hread
  rw [ByteArray.readFixed, bind_ok hread]
  change EStateM.Result.ok (if after.endian = host then load host w _ else
    byteswap sign (load host w _)) after = _
  rw [fixedBytes, load_store host hw, hafter.endian_eq]
  by_cases hsame : endian = host
  · rw [if_pos hsame, if_neg (not_not.mpr hsame)]
  · rw [if_neg hsame, if_pos hsame, byteswap_byteswap hw]

/-- A byte is stored and loaded without a swap. -/
theorem reads_readFuint8 (endian : Endian) (value : BitVec 8) :
    Reads endian (ByteArray.readFuint8 host) (store host value) value := by
  intro b rest hreading
  obtain ⟨after, hread, hafter⟩ := hreading.read
  rw [length_store] at hread
  refine ⟨after, ?_, hafter⟩
  rw [ByteArray.readFuint8, map_ok _ hread, load_store host (dvd_refl 8)]

/-- A byte is read as the integer it is. -/
theorem load_byte (byte : UInt8) : load host 8 [byte] = byte.toBitVec := by
  have horder : hostOrder host [byte] = [byte] := by cases host <;> rfl
  have hbyte : byte.toNat < 256 := byte.toNat_lt
  apply BitVec.eq_of_toNat_eq
  rw [load, horder, ofLittleEndian, ofLittleEndian, Nat.mul_zero, Nat.add_zero,
    toNat_numeral hbyte]
  rfl

theorem Reading.readFuint8 {b : ByteArray} {endian : Endian} {byte : UInt8} {rest : List UInt8}
    (hreading : Reading b endian (byte :: rest)) :
    ∃ after, ByteArray.readFuint8 host b = .ok byte.toBitVec after ∧ Reading after endian rest := by
  have hsplit : Reading b endian ([byte] ++ rest) := hreading
  obtain ⟨after, hread, hafter⟩ := hsplit.read
  refine ⟨after, ?_, hafter⟩
  have hone : ByteArray.read 1 b = .ok [byte] after := hread
  rw [ByteArray.readFuint8, map_ok _ hone, load_byte]

/-- `R b bytes` says which bytes come next in `b`: `readFuint8` takes them off one by one. -/
def Feeds (R : ByteArray → List UInt8 → Prop) : Prop :=
  ∀ b byte rest, R b (byte :: rest) →
    ∃ after, ByteArray.readFuint8 host b = .ok byte.toBitVec after ∧ R after rest

theorem feeds_reading (endian : Endian) :
    Feeds host fun b pending ↦ Reading b endian pending :=
  fun _ _ _ hreading ↦ Reading.readFuint8 host hreading

/-- Assumes: bits below `i` and a sum that fits. Putting a group of bits on top of them is an
addition. -/
theorem or_shiftLeft_eq {w i group : ℕ} {result : BitVec w} (hlow : result.toNat < 2 ^ i)
    (hfits : result.toNat + group * 2 ^ i < 2 ^ w) :
    result ||| (BitVec.ofNat w group <<< i) = BitVec.ofNat w (result.toNat + group * 2 ^ i) := by
  have hshift : group ≤ group * 2 ^ i := Nat.le_mul_of_pos_right group (Nat.two_pow_pos i)
  have hgroup : group < 2 ^ w := by omega
  apply BitVec.eq_of_toNat_eq
  rw [toNat_numeral hfits, BitVec.toNat_or, BitVec.toNat_shiftLeft, toNat_numeral hgroup,
    Nat.shiftLeft_eq, Nat.mod_eq_of_lt (by omega), Nat.or_comm, Nat.mul_comm group,
    ← Nat.two_pow_add_eq_or_of_lt hlow]
  omega

/-- Assumes: the only group of `value` comes next, and its bits fit. The turn of the varint loop
that meets it ends the loop. -/
theorem Feeds.readVarintLoop_last {w : ℕ} {R : ByteArray → List UInt8 → Prop}
    (hfeeds : Feeds host R) {rest : List UInt8} {i value : ℕ} {b : ByteArray} {result : BitVec w}
    (hnext : R b (base128 value ++ rest)) (hsmall : value < 128) (hlow : result.toNat < 2 ^ i)
    (hfits : result.toNat + value * 2 ^ i < 2 ^ w) (shifts : List ℕ) :
    ∃ after, ByteArray.readVarintLoop host (i :: shifts) result b =
        .ok (BitVec.ofNat w (result.toNat + value * 2 ^ i)) after ∧ R after rest := by
  rw [base128_of_lt hsmall] at hnext
  obtain ⟨after, hread, hafter⟩ := hfeeds b _ rest hnext
  have hbyte : (UInt8.ofNat value).toBitVec = BitVec.ofNat 8 value := rfl
  have hvalue : (BitVec.ofNat 8 value).toNat = value := toNat_numeral (by omega)
  have hwidth : (BitVec.ofNat 8 value).setWidth w = BitVec.ofNat w value := by
    rw [← BitVec.ofNat_toNat, hvalue]
  refine ⟨after, ?_, hafter⟩
  rw [ByteArray.readVarintLoop, bind_ok hread, hbyte, if_pos (by omega), hwidth,
    or_shiftLeft_eq hlow hfits]
  rfl

/-- Assumes: bits below `i`. With a group of seven bits on top of them they lie below `i + 7`. -/
theorem low_group_lt {low i : ℕ} (hlow : low < 2 ^ i) (value : ℕ) :
    low + value % 128 * 2 ^ i < 2 ^ (i + 7) := by
  have hpow : 2 ^ (i + 7) = 128 * 2 ^ i := by rw [pow_add, Nat.mul_comm]; rfl
  have hmod : (value % 128 + 1) * 2 ^ i ≤ 128 * 2 ^ i :=
    Nat.mul_le_mul_right _ (Nat.mod_lt value (by omega))
  rw [Nat.add_mul, Nat.one_mul] at hmod
  omega

/-- Assumes: several groups of `value` come next, and the bits of the first one fit. The turn of the
varint loop that meets it goes on to the others. -/
theorem Feeds.readVarintLoop_more {w : ℕ} {R : ByteArray → List UInt8 → Prop}
    (hfeeds : Feeds host R) {rest : List UInt8} {i value : ℕ} {b : ByteArray} {result : BitVec w}
    (hnext : R b (base128 value ++ rest)) (hlarge : 128 ≤ value) (hlow : result.toNat < 2 ^ i)
    (hfits : result.toNat + value % 128 * 2 ^ i < 2 ^ w) (shifts : List ℕ) :
    ∃ middle, ByteArray.readVarintLoop host (i :: shifts) result b =
        ByteArray.readVarintLoop host shifts
          (BitVec.ofNat w (result.toNat + value % 128 * 2 ^ i)) middle ∧
      R middle (base128 (value / 128) ++ rest) := by
  rw [base128_of_le hlarge] at hnext
  obtain ⟨middle, hread, hmiddle⟩ := hfeeds b _ _ hnext
  have hbyte : (UInt8.ofNat (value % 128 + 128)).toBitVec = BitVec.ofNat 8 (value % 128 + 128) :=
    rfl
  have hgroup : (BitVec.ofNat 8 (value % 128 + 128)).toNat = value % 128 + 128 :=
    toNat_numeral (by omega)
  have hwidth : (BitVec.ofNat 8 (value % 128 + 128) &&& 0x7f#8).setWidth w =
      BitVec.ofNat w (value % 128) := by
    rw [← BitVec.ofNat_toNat, toNat_and_low (le_refl 8), hgroup, Nat.add_mod_right, Nat.mod_mod]
  refine ⟨middle, ?_, hmiddle⟩
  rw [ByteArray.readVarintLoop, bind_ok hread, hbyte, hgroup, if_neg (by omega), hwidth,
    or_shiftLeft_eq hlow hfits]

/-- Assumes: the groups of `value` come next, the loop has `rounds + 1` turns left, which are enough
for them, the bits collected so far lie below `i`, and all bits fit. The loop of the varint readers
puts the value on top of the bits collected. -/
theorem Feeds.readVarintLoop {w : ℕ} {R : ByteArray → List UInt8 → Prop} (hfeeds : Feeds host R)
    {rest : List UInt8} (rounds : ℕ) :
    ∀ (i value : ℕ) (b : ByteArray) (result : BitVec w),
      R b (base128 value ++ rest) → value < 128 ^ (rounds + 1) →
      result.toNat < 2 ^ i → result.toNat + value * 2 ^ i < 2 ^ w →
      ∃ after, ByteArray.readVarintLoop host (List.range' i (rounds + 1) 7) result b =
          .ok (BitVec.ofNat w (result.toNat + value * 2 ^ i)) after ∧ R after rest := by
  induction rounds with
  | zero =>
    intro i value b result hnext hrounds hlow hfits
    exact hfeeds.readVarintLoop_last host hnext (by omega) hlow hfits _
  | succ rounds ih =>
    intro i value b result hnext hrounds hlow hfits
    by_cases hsmall : value < 128
    · exact hfeeds.readVarintLoop_last host hnext hsmall hlow hfits _
    · -- The group read is the low seven bits; the induction hypothesis reads the others.
      have hpow : 2 ^ (i + 7) = 128 * 2 ^ i := by rw [pow_add, Nat.mul_comm]; rfl
      have hsplit : value = value % 128 + 128 * (value / 128) := (Nat.mod_add_div value 128).symm
      have hsum : result.toNat + value * 2 ^ i =
          result.toNat + value % 128 * 2 ^ i + value / 128 * 2 ^ (i + 7) := by
        rw [hpow]
        nth_rewrite 1 [hsplit]
        ring
      obtain ⟨middle, hturn, hmiddle⟩ :=
        hfeeds.readVarintLoop_more host hnext (by omega) hlow (by omega)
          (List.range' (i + 7) (rounds + 1) 7)
      have hcollected : (BitVec.ofNat w (result.toNat + value % 128 * 2 ^ i)).toNat =
          result.toNat + value % 128 * 2 ^ i := toNat_numeral (by omega)
      obtain ⟨after, hloop, hafter⟩ := ih (i + 7) (value / 128) middle
        (BitVec.ofNat w (result.toNat + value % 128 * 2 ^ i)) hmiddle
        (Nat.div_lt_of_lt_mul (by rwa [← pow_succ']))
        (by rw [hcollected]; exact low_group_lt hlow value) (by rwa [hcollected, ← hsum])
      refine ⟨after, ?_, hafter⟩
      rw [List.range'_succ, hturn, hloop, hcollected, ← hsum]

/-- The value that a number read from its groups stands for. -/
def varintValue {w : ℕ} (sign : Signedness) (code : BitVec w) : BitVec w :=
  match sign with
  | .signed => decodeZigzag code
  | .unsigned => code

/-- Assumes: at least two bits. -/
theorem varintValue_varintCode {w : ℕ} (hw : 1 < w) (sign : Signedness) (value : BitVec w) :
    varintValue sign (varintCode sign value) = value := by
  cases sign with
  | signed => exact decodeZigzag_encodeZigzag hw value
  | unsigned => rfl

theorem readVarint_eq {w : ℕ} (sign : Signedness) :
    (readVarint host sign : ByteArrayM (BitVec w)) =
      varintValue sign <$> readVarintLoop host varintShifts 0 := by
  cases sign with
  | signed => rfl
  | unsigned => exact (id_map _).symm

/-- Assumes: a value whose code fits the five turns of the varint readers. They return the value
whose bytes come next. -/
theorem Feeds.readVarint {R : ByteArray → List UInt8 → Prop} (hfeeds : Feeds host R) {w : ℕ}
    (hw : 8 ≤ w) {sign : Signedness} {value : BitVec w} {rest : List UInt8} {b : ByteArray}
    (hcode : (varintCode sign value).toNat < 128 ^ 5)
    (hnext : R b (encodedBytes sign value ++ rest)) :
    ∃ after, ByteArray.readVarint host sign b = .ok value after ∧ R after rest := by
  have hshifts : varintShifts = List.range' 0 (4 + 1) 7 := rfl
  have hzero : (0#w).toNat = 0 := toNat_numeral (Nat.two_pow_pos w)
  have hcollected : (0#w).toNat + (varintCode sign value).toNat * 2 ^ 0 =
      (varintCode sign value).toNat := by
    rw [hzero, Nat.zero_add, pow_zero, Nat.mul_one]
  rw [encodedBytes, varintBytes_eq hw] at hnext
  obtain ⟨after, hloop, hafter⟩ := hfeeds.readVarintLoop host 4 0 (varintCode sign value).toNat b
    0#w hnext hcode (by rw [hzero]; exact Nat.one_pos) (by rw [hcollected]; exact BitVec.isLt _)
  refine ⟨after, ?_, hafter⟩
  rw [hcollected, BitVec.ofNat_toNat, BitVec.setWidth_eq, ← hshifts] at hloop
  have hread : ByteArray.readVarintLoop host varintShifts (0 : BitVec w) b =
      .ok (varintCode sign value) after := hloop
  rw [readVarint_eq, map_ok _ hread, varintValue_varintCode (by omega)]

theorem reads_readVarint (endian : Endian) {w : ℕ} (hw : 8 ≤ w) {sign : Signedness}
    {value : BitVec w} (hcode : (varintCode sign value).toNat < 128 ^ 5) :
    Reads endian (ByteArray.readVarint host sign) (encodedBytes sign value) value :=
  fun _ _ hreading ↦ (feeds_reading host endian).readVarint host hw hcode hreading

/-- The five turns are enough for 32 bits. -/
theorem varintCode_lt (sign : Signedness) (value : BitVec 32) :
    (varintCode sign value).toNat < 128 ^ 5 := by
  have hlt := (varintCode sign value).isLt
  omega

/-! ### Strings -/

/-- The bytes of a string behind its length in `w` bits. -/
def stringBytes (endian : Endian) (w : ℕ) (s : List UInt8) : List UInt8 :=
  fixedBytes host endian .unsigned (BitVec.ofNat w s.length) ++ s

theorem appends_writeString (baseSize : ℕ) (endian : Endian) (w : ℕ) (s : List UInt8) :
    Appends baseSize endian (ByteArray.writeString junk host w s) (stringBytes host endian w s) :=
  (appends_writeFixed junk host baseSize endian .unsigned _).bind
    (appends_write junk baseSize endian s)

/-- Assumes: a whole number of bytes in the length field, and a length that fits it. -/
theorem reads_readString {w : ℕ} (hw : 8 ∣ w) (endian : Endian) {s : List UInt8}
    (hfits : s.length < 2 ^ w) :
    Reads endian (ByteArray.readString host w) (stringBytes host endian w s) s := by
  apply (reads_readFixed host hw endian .unsigned (BitVec.ofNat w s.length)).bind
  rw [toNat_numeral hfits]
  exact reads_read endian s

end ByteArray

/-! ### Values of all types -/

open Cczoe.Net.ByteArray

/-- The bytes of a value. -/
def Value.encode (host endian : Endian) : Value → List UInt8
  | fint8 v | fuint8 v => store host v
  | fint16 v => fixedBytes host endian .signed v
  | fuint16 v => fixedBytes host endian .unsigned v
  | fint32 v => fixedBytes host endian .signed v
  | fuint32 v | float v => fixedBytes host endian .unsigned v
  | fint64 v => fixedBytes host endian .signed v
  | fuint64 v | double v => fixedBytes host endian .unsigned v
  | int32 v => varintBytes (encodeZigzag v)
  | uint32 v => varintBytes v
  | stringF16 s => stringBytes host endian 16 s
  | stringF32 s => stringBytes host endian 32 s
  | stringF64 s | stringVint s => stringBytes host endian 64 s

section Values

variable (junk : ℕ → ℕ → UInt8) (host endian : Endian)

theorem Value.length_encode (value : Value) :
    (value.encode host endian).length = value.encodedLength := by
  cases value with
  | fint8 v | fuint8 v => exact length_store host v
  | fint16 v | fuint16 v | fint32 v | fuint32 v | fint64 v | fuint64 v | float v | double v =>
    exact length_fixedBytes host endian _ v
  | int32 v | uint32 v => rfl
  | stringF16 s | stringF32 s | stringF64 s | stringVint s =>
    rw [encode, stringBytes, List.length_append, length_fixedBytes]
    rfl

/-- Every write function appends the bytes of its value. -/
theorem appends_writeValue (baseSize : ℕ) (value : Value) :
    Appends baseSize endian (value.write junk host) (value.encode host endian) := by
  cases value with
  | fint8 v | fuint8 v => exact appends_write junk baseSize endian _
  | fint16 v | fuint16 v | fint32 v | fuint32 v | fint64 v | fuint64 v | float v | double v =>
    exact appends_writeFixed junk host baseSize endian _ v
  | int32 v | uint32 v => exact appends_write junk baseSize endian _
  | stringF16 s | stringF32 s | stringF64 s | stringVint s =>
    exact appends_writeString junk host baseSize endian _ s

/-- Assumes: a string length that fits the length field and `size_t`. Every read function returns
the value whose bytes come next. -/
theorem reads_readValue {value : Value} (hfits : value.LengthFits)
    (hsize : value.encodedLength < 2 ^ 64) :
    Reads endian (value.kind.read host) (value.encode host endian) value := by
  cases value with
  | fint8 v | fuint8 v => exact (reads_readFuint8 host endian v).map _
  | fint16 v | fuint16 v | fint32 v | fuint32 v | fint64 v | fuint64 v | float v | double v =>
    exact (reads_readFixed host (by decide) endian _ v).map _
  | int32 v => exact (reads_readVarint host endian (by omega) (varintCode_lt .signed v)).map _
  | uint32 v => exact (reads_readVarint host endian (by omega) (varintCode_lt .unsigned v)).map _
  | stringF16 s => exact (reads_readString host (by decide) endian (Nat.lt_succ_of_le hfits)).map _
  | stringF32 s => exact (reads_readString host (by decide) endian hfits).map _
  | stringF64 s | stringVint s =>
    have hlength : 8 + s.length < 2 ^ 64 := hsize
    exact (reads_readString host (by decide) endian (by omega)).map _

theorem appends_writeValues (baseSize : ℕ) (values : List Value) :
    Appends baseSize endian (writeValues junk host values)
      (values.flatMap (Value.encode host endian)) := by
  induction values with
  | nil => exact appends_pure baseSize endian
  | cons value rest ih =>
    rw [List.flatMap_cons]
    exact (appends_writeValue junk host endian baseSize value).bind ih

theorem reads_readValues {values : List Value} (hfits : ∀ value ∈ values, value.LengthFits)
    (hsize : ∀ value ∈ values, value.encodedLength < 2 ^ 64) :
    Reads endian (readValues host (values.map Value.kind))
      (values.flatMap (Value.encode host endian)) values := by
  induction values with
  | nil => exact reads_pure endian []
  | cons value rest ih =>
    rw [List.forall_mem_cons] at hfits hsize
    rw [List.flatMap_cons, List.map_cons]
    apply (reads_readValue host endian hfits.1 hsize.1).bind
    rw [← List.append_nil (rest.flatMap _)]
    exact (ih hfits.2 hsize.2).bind (reads_pure endian (value :: rest))

theorem length_flatMap_encode (values : List Value) :
    (values.flatMap (Value.encode host endian)).length = (values.map Value.encodedLength).sum := by
  rw [List.length_flatMap]
  simp only [Value.length_encode]

/-- The values written into a fresh array come back from `setPosition(0)` on, and nothing stays
readable. Assumes: a block size that is a `size_t` and larger than all bytes written, and strings
whose lengths fit their length fields. -/
theorem readValues_writeValues {baseSize : ℕ} (hword : baseSize < 2 ^ 64) {values : List Value}
    (hfits : ∀ value ∈ values, value.LengthFits)
    (hroom : (values.map Value.encodedLength).sum < baseSize) :
    ∃ written atStart final,
      writeValues junk host values ((ofBaseSize junk baseSize).setEndian endian) = .ok () written ∧
      ByteArray.setPosition 0 written = .ok () atStart ∧
      readValues host (values.map Value.kind) atStart = .ok values final ∧
      final.getReadableSize = 0 := by
  have hsize : ∀ value ∈ values, value.encodedLength < 2 ^ 64 := by
    intro value hvalue
    have hmem : value.encodedLength ∈ values.map Value.encodedLength :=
      List.mem_map_of_mem hvalue
    have hle := List.single_le_sum (fun n _ ↦ Nat.zero_le n) _ hmem
    omega
  rw [← length_flatMap_encode host endian] at hroom
  obtain ⟨written, hwrite, hfilling⟩ := appends_writeValues junk host endian baseSize values _ []
    (filling_ofBaseSize junk (by omega) endian) (by rwa [List.length_nil, Nat.zero_add])
  rw [List.nil_append] at hfilling
  obtain ⟨atStart, hposition, hreading⟩ := hfilling.setPosition hroom
  rw [← List.append_nil (values.flatMap _)] at hreading
  obtain ⟨final, hread, hfinal⟩ := reads_readValues host endian hfits hsize atStart [] hreading
  refine ⟨written, atStart, final, hwrite, hposition, hread, ?_⟩
  have hlength := hfinal.length_eq
  rw [getReadableSize, hlength, List.length_nil, Nat.add_zero, Nat.sub_self]

end Values

/-- A network-order word, a negative varint and two strings on a little-endian host. -/
theorem readValues_writeValues_network_order :
    ∃ written atStart final,
      writeValues (fun _ _ ↦ 0) .little
          [.fuint32 0x01020304, .int32 (-70), .stringF16 [104, 105], .stringVint []]
          ((ByteArray.ofBaseSize (fun _ _ ↦ 0) 32).setEndian .big) = .ok () written ∧
      ByteArray.setPosition 0 written = .ok () atStart ∧
      readValues .little [.fuint32, .int32, .stringF16, .stringVint] atStart =
        .ok [.fuint32 0x01020304, .int32 (-70), .stringF16 [104, 105], .stringVint []] final ∧
      final.getReadableSize = 0 := by
  refine readValues_writeValues (fun _ _ ↦ 0) .little .big ?_ ?_ ?_
  · decide
  · simp [Value.LengthFits]
  · simp [Value.encodedLength, varintBytes, encodeZigzag]

end Cczoe.Net
