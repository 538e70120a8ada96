import Cczoe.Net.ByteOrders

/-!
# Reads of incomplete data

A typed reader that throws `std::out_of_range` because data is missing should leave the array as it
was, so that the caller can try again once more bytes have arrived. `read` does (`read_advance`),
and with it every reader that makes one `read`. The composite readers do not put back what they
have consumed. A varint reader consumes the groups there are (`readVarintLoop_starved`), a string
reader the length field.

`incompleteRead_keepsState_iff` is the exact condition, reader by reader, in terms of the readable
bytes.
-/

set_option autoImplicit false
set_option relaxedAutoImplicit false

namespace Cczoe.Net

/-- Assumes: the first part of a sequence stops. The sequence stops there. -/
theorem bind_error {α β : Type} {x : ByteArrayM α} {f : α → ByteArrayM β} {fault : Fault}
    {b after : ByteArray} (hx : x b = .error fault after) : (x >>= f) b = .error fault after := by
  simp only [bind, EStateM.bind, hx]

theorem map_error_iff {α β : Type} (f : α → β) {x : ByteArrayM α} {fault : Fault}
    {b after : ByteArray} : (f <$> x) b = .error fault after ↔ x b = .error fault after := by
  simp only [Functor.map, EStateM.map]
  cases x b with
  | ok a stop => simp
  | error other stop => simp

namespace ByteArray

/-! ### One read -/

/-- The array with the position moved on by `n` bytes and the cursor at its block. -/
def advance (b : ByteArray) (n : ℕ) : ByteArray :=
  { b with
    position := b.position + n
    curr := seat b.baseSize b.root.length (b.position + n) }

/-- The readable bytes. -/
def pending (b : ByteArray) : List UInt8 := (b.text.drop b.position).take b.getReadableSize

theorem pending_advance (b : ByteArray) (n : ℕ) : (b.advance n).pending = b.pending.drop n := by
  rw [pending, pending, List.drop_take, List.drop_drop]
  simp only [advance, getReadableSize, Nat.sub_add_eq]
  rfl

section Placed

variable {b : ByteArray} (hb : Placed b)

include hb

theorem length_pending : b.pending.length = b.getReadableSize := by
  have hsize := hb.size_le
  rw [pending, List.length_take, List.length_drop, hb.length_text, getReadableSize]
  omega

/-- Assumes: some bytes that are readable. `read` returns them and moves on. -/
theorem read_advance {n : ℕ} (hn : 1 ≤ n) (hle : n ≤ b.getReadableSize) :
    read n b = .ok (b.pending.take n) (b.advance n) ∧ Placed (b.advance n) := by
  have hposition := hb.position_lt (by omega)
  have hends : b.position + n ≤ b.size := by
    have horder := hb.position_le
    rw [getReadableSize] at hle
    omega
  have hwell : WellFormed b := hb.wellFormed (by omega)
  refine ⟨?_, (hwell.move hends).toPlaced⟩
  rw [read_eq hwell hposition hends, pending, List.take_take, Nat.min_eq_left hle]
  rfl

/-- Assumes: a readable byte. `readFuint8` takes it off the readable bytes. -/
theorem readFuint8_advance (host : Endian) {byte : UInt8} {rest : List UInt8}
    (hpending : b.pending = byte :: rest) :
    readFuint8 host b = .ok byte.toBitVec (b.advance 1) ∧ Placed (b.advance 1) ∧
      (b.advance 1).pending = rest := by
  have hlength := length_pending hb
  rw [hpending, List.length_cons] at hlength
  obtain ⟨hread, hafter⟩ := read_advance hb (le_refl 1) (by omega)
  rw [hpending, List.take_succ_cons, List.take_zero] at hread
  refine ⟨?_, hafter, ?_⟩
  · rw [readFuint8, map_ok _ hread, load_byte]
  · rw [pending_advance, hpending, List.drop_one, List.tail_cons]

end Placed

theorem read_short {b : ByteArray} {n : ℕ} (hshort : b.getReadableSize < n) :
    read n b = .error (.outOfRange "read size out of range") b := if_pos hshort

/-! ### What a reader leaves when data is missing -/

/-- If the reader throws because data is missing, it leaves the array as it was. -/
def KeepsState {α : Type} (x : ByteArrayM α) (b : ByteArray) : Prop :=
  ∀ what after, x b = .error (.outOfRange what) after → after = b

theorem keepsState_map {α β : Type} (f : α → β) {x : ByteArrayM α} {b : ByteArray} :
    KeepsState (f <$> x) b ↔ KeepsState x b := by
  simp only [KeepsState, map_error_iff]

theorem keepsState_of_ok {α : Type} {x : ByteArrayM α} {b after : ByteArray} {value : α}
    (hx : x b = .ok value after) : KeepsState x b := by
  intro what stop hstop
  rw [hx] at hstop
  exact absurd hstop (by simp)

theorem keepsState_of_error {α : Type} {x : ByteArrayM α} {b : ByteArray} {fault : Fault}
    (hx : x b = .error fault b) : KeepsState x b := by
  intro what stop hstop
  rw [hx] at hstop
  obtain ⟨-, rfl⟩ : fault = .outOfRange what ∧ b = stop := by simpa using hstop
  rfl

/-- Assumes: the reader throws behind the position it started from. -/
theorem not_keepsState_of_moved {α : Type} {x : ByteArrayM α} {b after : ByteArray} {what : String}
    (hx : x b = .error (.outOfRange what) after) (hmoved : b.position < after.position) :
    ¬ KeepsState x b := by
  intro hkeeps
  rw [hkeeps what after hx] at hmoved
  exact Nat.lt_irrefl _ hmoved

variable (host : Endian) {b : ByteArray}

/-- Assumes: some bytes asked for. One read is all or nothing. -/
theorem keepsState_read (hb : Placed b) {n : ℕ} (hn : 1 ≤ n) : KeepsState (read n) b := by
  by_cases hshort : b.getReadableSize < n
  · exact keepsState_of_error (read_short hshort)
  · exact keepsState_of_ok (read_advance hb hn (by omega)).1

/-- Assumes: at least one byte in the type. -/
theorem keepsState_readFixed (hb : Placed b) {w : ℕ} (hw : 1 ≤ w / 8) (sign : Signedness) :
    KeepsState (readFixed host sign w) b := by
  by_cases hshort : b.getReadableSize < w / 8
  · exact keepsState_of_error (bind_error (read_short hshort))
  · exact keepsState_of_ok ((bind_ok (read_advance hb hw (by omega)).1).trans rfl)

/-! ### Varints -/

/-- Assumes: as many readable bytes as the loop has turns, or one that ends it. The loop returns. -/
theorem readVarintLoop_fed {w : ℕ} (shifts : List ℕ) :
    ∀ (b : ByteArray) (result : BitVec w), Placed b →
      (shifts.length ≤ b.pending.length ∨ ∃ byte ∈ b.pending, byte.toNat < 0x80) →
      ∃ value after, readVarintLoop host shifts result b = .ok value after := by
  induction shifts with
  | nil => exact fun b result _ _ ↦ ⟨result, b, rfl⟩
  | cons i rest ih =>
    intro b result hb hfed
    cases hpending : b.pending with
    | nil =>
      rw [hpending] at hfed
      simp at hfed
    | cons byte bytes =>
      obtain ⟨hread, hafter, hbytes⟩ := readFuint8_advance hb host hpending
      rw [readVarintLoop, bind_ok hread]
      by_cases hlast : byte.toBitVec.toNat < 0x80
      · rw [if_pos hlast]
        exact ⟨_, _, rfl⟩
      · rw [if_neg hlast]
        refine ih _ _ hafter ?_
        rw [hpending, List.length_cons, List.length_cons] at hfed
        rw [hbytes]
        refine hfed.imp (fun hlength ↦ by omega) ?_
        rintro ⟨other, hother, hsmall⟩
        rcases List.mem_cons.mp hother with rfl | hmem
        · exact absurd hsmall hlast
        · exact ⟨other, hmem, hsmall⟩

/-- Assumes: fewer readable bytes than the loop has turns, none of which ends it. The loop throws
with all of them consumed. -/
theorem readVarintLoop_starved {w : ℕ} (shifts : List ℕ) :
    ∀ (b : ByteArray) (result : BitVec w), Placed b → b.pending.length < shifts.length →
      (∀ byte ∈ b.pending, ¬ byte.toNat < 0x80) →
      ∃ after, readVarintLoop host shifts result b =
          .error (.outOfRange "read size out of range") after ∧
        after.position = b.position + b.pending.length ∧ (b.pending = [] → after = b) := by
  induction shifts with
  | nil =>
    intro b result _ hlength _
    exact absurd hlength (Nat.not_lt_zero _)
  | cons i rest ih =>
    intro b result hb hlength hlarge
    cases hpending : b.pending with
    | nil =>
      have hshort : b.getReadableSize < 1 := by
        rw [← length_pending hb, hpending]
        exact Nat.one_pos
      refine ⟨b, ?_, rfl, fun _ ↦ rfl⟩
      exact bind_error ((map_error_iff _).mpr (read_short hshort))
    | cons byte bytes =>
      obtain ⟨hread, hafter, hbytes⟩ := readFuint8_advance hb host hpending
      rw [hpending, List.length_cons, List.length_cons] at hlength
      rw [hpending] at hlarge
      have hgroup : ¬ byte.toBitVec.toNat < 0x80 := hlarge byte List.mem_cons_self
      obtain ⟨after, hloop, hposition, -⟩ := ih (b.advance 1)
        (result ||| ((byte.toBitVec &&& 0x7f#8).setWidth w <<< i)) hafter
        (by rw [hbytes]; omega)
        (by rw [hbytes]; exact fun other hother ↦ hlarge other (List.mem_cons_of_mem _ hother))
      refine ⟨after, ?_, ?_, fun hnil ↦ absurd hnil (List.cons_ne_nil _ _)⟩
      · rw [readVarintLoop, bind_ok hread, if_neg hgroup, hloop]
      · rw [hposition, hbytes, List.length_cons, advance]
        dsimp only
        omega

/-- Nothing is readable, or all five groups the loop can take, or a group that ends the varint. -/
def VarintDecided (b : ByteArray) : Prop :=
  b.pending = [] ∨ 5 ≤ b.pending.length ∨ ∃ byte ∈ b.pending, byte.toNat < 0x80

theorem keepsState_readVarint_iff (hb : Placed b) {w : ℕ} :
    KeepsState (readVarintLoop host varintShifts (0#w)) b ↔ VarintDecided b := by
  by_cases hfed : 5 ≤ b.pending.length ∨ ∃ byte ∈ b.pending, byte.toNat < 0x80
  · obtain ⟨value, after, hloop⟩ := readVarintLoop_fed host varintShifts b (0#w) hb hfed
    exact iff_of_true (keepsState_of_ok hloop) (Or.inr hfed)
  · obtain ⟨hlength, hlarge⟩ := not_or.mp hfed
    obtain ⟨after, hloop, hposition, hsame⟩ := readVarintLoop_starved host varintShifts b (0#w) hb
      (Nat.lt_of_not_le hlength) (fun byte hbyte hsmall ↦ hlarge ⟨byte, hbyte, hsmall⟩)
    by_cases hnone : b.pending = []
    · rw [hsame hnone] at hloop
      exact iff_of_true (keepsState_of_error hloop) (Or.inl hnone)
    · have hsome := List.length_pos_of_ne_nil hnone
      refine iff_of_false (not_keepsState_of_moved hloop (by omega)) ?_
      rintro (hnil | hother)
      · exact hnone hnil
      · exact hfed hother

/-! ### Strings -/

/-- The length that the length field at the position declares. -/
def declaredLength (w : ℕ) (b : ByteArray) : ℕ :=
  (decodeFixed host b.endian .unsigned w (b.pending.take (w / 8))).toNat

/-- The length field is not all there, or it is and so is the string it declares. -/
def StringDecided (w : ℕ) (b : ByteArray) : Prop :=
  b.getReadableSize < w / 8 ∨ declaredLength host w b ≤ b.getReadableSize - w / 8

/-- Assumes: a placed array. `read` with nothing to read does not throw. -/
theorem read_zero_ne_outOfRange (hb : Placed b) (what : String) (after : ByteArray) :
    read 0 b ≠ .error (.outOfRange what) after := by
  have hposition := hb.position_le
  have hsize := hb.size_le
  by_cases hend : b.position = b.capacity
  · have hcurr : b.curr = none := by rw [hb.curr_eq, if_pos hend]
    rw [read, if_neg (by omega), readFrom]
    simp only [hcurr]
    simp
  · have hwell : WellFormed b := hb.wellFormed (by omega)
    rw [read_eq hwell (by omega) (by omega)]
    simp

theorem keepsState_readString_iff (hb : Placed b) {w : ℕ} (hw : 1 ≤ w / 8) :
    KeepsState (readString host w) b ↔ StringDecided host w b := by
  by_cases hshort : b.getReadableSize < w / 8
  · have hthrows : readString host w b = .error (.outOfRange "read size out of range") b :=
      bind_error (bind_error (read_short hshort))
    exact iff_of_true (keepsState_of_error hthrows) (Or.inl hshort)
  obtain ⟨hread, hafter⟩ := read_advance hb hw (Nat.le_of_not_lt hshort)
  have hfield : readFixed host .unsigned w b = .ok
      (decodeFixed host b.endian .unsigned w (b.pending.take (w / 8))) (b.advance (w / 8)) :=
    (bind_ok hread).trans rfl
  have hstring : readString host w b = read (declaredLength host w b) (b.advance (w / 8)) :=
    bind_ok hfield
  have hreadable : (b.advance (w / 8)).getReadableSize = b.getReadableSize - w / 8 := by
    simp only [advance, getReadableSize, Nat.sub_add_eq]
  by_cases hcomplete : declaredLength host w b ≤ b.getReadableSize - w / 8
  · refine iff_of_true ?_ (Or.inr hcomplete)
    intro what after hthrows
    rw [hstring] at hthrows
    by_cases hzero : declaredLength host w b = 0
    · rw [hzero] at hthrows
      exact absurd hthrows (read_zero_ne_outOfRange hafter what after)
    · rw [(read_advance hafter (by omega) (by omega)).1] at hthrows
      exact absurd hthrows (by simp)
  · have hthrows : readString host w b =
        .error (.outOfRange "read size out of range") (b.advance (w / 8)) := by
      rw [hstring]
      exact read_short (by omega)
    refine iff_of_false (not_keepsState_of_moved hthrows ?_) (not_or.mpr ⟨hshort, hcomplete⟩)
    rw [advance]
    dsimp only
    omega

end ByteArray

/-! ### Every reader -/

open Cczoe.Net.ByteArray

/-- A typed read function: those of `Kind`, and the two of 64-bit varints. -/
inductive Reader
  | kind (k : Kind)
  | int64
  | uint64
  deriving DecidableEq, Repr

namespace Reader

/-- The read function, with the value it returns forgotten. -/
def read (host : Endian) : Reader → ByteArrayM Unit
  | kind k => (fun _ ↦ ()) <$> k.read host
  | int64 => (fun _ ↦ ()) <$> readInt64 host
  | uint64 => (fun _ ↦ ()) <$> readUint64 host

/-- The readable bytes let the reader throw before it has consumed any, or not at all. -/
def Decided (host : Endian) (b : ByteArray) : Reader → Prop
  | kind .int32 | kind .uint32 | int64 | uint64 => VarintDecided b
  | kind .stringF16 => StringDecided host 16 b
  | kind .stringF32 => StringDecided host 32 b
  | kind .stringF64 | kind .stringVint => StringDecided host 64 b
  | kind _ => True

end Reader

/-- Assumes: a placed array. A reader that throws leaves the array as it was exactly when the
readable bytes are decided for it; the readers of fixed-width integers, floats and doubles always
do. -/
theorem incompleteRead_keepsState_iff (host : Endian) {b : ByteArray} (hb : Placed b)
    (reader : Reader) : KeepsState (reader.read host) b ↔ reader.Decided host b := by
  have hfixed {w : ℕ} (hw : 1 ≤ w / 8) (sign : Signedness) :
      KeepsState (readFixed host sign w) b ↔ True :=
    iff_true_intro (keepsState_readFixed host hb hw sign)
  cases reader with
  | int64 => exact (keepsState_map _).trans ((keepsState_map _).trans
      (keepsState_readVarint_iff host hb))
  | uint64 => exact (keepsState_map _).trans (keepsState_readVarint_iff host hb)
  | kind k =>
    refine (keepsState_map _).trans ?_
    cases k with
    | fint8 | fuint8 =>
      exact iff_of_true ((keepsState_map _).mpr
        ((keepsState_map _).mpr (keepsState_read hb (le_refl 1)))) trivial
    | fint16 | fuint16 => exact (keepsState_map _).trans (hfixed (by decide) _)
    | fint32 | fuint32 | float => exact (keepsState_map _).trans (hfixed (by decide) _)
    | fint64 | fuint64 | double => exact (keepsState_map _).trans (hfixed (by decide) _)
    | int32 => exact (keepsState_map _).trans ((keepsState_map _).trans
        (keepsState_readVarint_iff host hb))
    | uint32 => exact (keepsState_map _).trans (keepsState_readVarint_iff host hb)
    | stringF16 => exact (keepsState_map _).trans (keepsState_readString_iff host hb (by decide))
    | stringF32 => exact (keepsState_map _).trans (keepsState_readString_iff host hb (by decide))
    | stringF64 | stringVint =>
      exact (keepsState_map _).trans (keepsState_readString_iff host hb (by decide))

/-- Two readable bytes that say a string of five bytes follows, and nothing behind them. -/
def lengthOnly : ByteArray where
  baseSize := 8
  position := 0
  capacity := 8
  size := 2
  endian := .little
  root := [⟨[5, 0, 0, 0, 0, 0, 0, 0]⟩]
  curr := some 0

theorem placed_lengthOnly : Placed lengthOnly :=
  ⟨⟨by decide, by decide⟩, by decide, by decide, by decide, by decide⟩

/-- The first byte there ends a varint. -/
theorem keepsState_uint64_lengthOnly :
    KeepsState (Reader.uint64.read .little) lengthOnly :=
  (incompleteRead_keepsState_iff .little placed_lengthOnly .uint64).mpr
    (Or.inr (Or.inr ⟨5, by decide, by decide⟩))

/-- The string reader throws with the length field consumed. -/
theorem not_keepsState_stringF16_lengthOnly :
    ¬ KeepsState ((Reader.kind .stringF16).read .little) lengthOnly := by
  have hthrows : (Reader.kind .stringF16).read .little lengthOnly =
      .error (.outOfRange "read size out of range") { lengthOnly with position := 2 } := rfl
  exact not_keepsState_of_moved hthrows (by decide)

end Cczoe.Net
