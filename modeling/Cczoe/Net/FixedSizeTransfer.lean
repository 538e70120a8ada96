import Cczoe.Net.SocketTransfer

/-!
# What a fixed-size transfer moves

The raw-buffer variants are right: `writeFixSize_eq` and `readFixSize_eq` say that every byte moves
once, in order, however the kernel splits the transfer, and that the number of bytes is returned.

The `ByteArray` variants are not. Their loop returns what is left to move, which is nothing when it
ends well (`arrayLoop_rule`), so they never return the count (`fixSize_never_agrees`). They do not
move the position between two transfers either: `writeFixSizeArray_eq` says that every transfer
begins again with the first readable byte, and `readFixSizeArray_position` that a read leaves the
position where it was.
-/

set_option autoImplicit false
set_option relaxedAutoImplicit false

namespace Cczoe.Net

open Foundations.BlockStorage

/-! ### The two loops -/

section Loops

variable {σ : Type}

/-- Assumes: from a state of the invariant every transfer moves at least one byte, at most what is
asked, and keeps the invariant. The raw loop ends with the whole length moved and returns it. -/
theorem bufferLoop_rule {transfer : ℕ → ℕ → σ → ℤ × σ} {length : ℕ} (invariant : ℕ → σ → Prop)
    (hstep : ∀ (offset : ℕ) (state : σ), offset < length → invariant offset state →
      ∃ (count : ℕ) (after : σ), transfer offset (length - offset) state = (↑count, after) ∧
        0 < count ∧ count ≤ length - offset ∧ invariant (offset + count) after) :
    ∀ (offset : ℕ) (state : σ), offset ≤ length → invariant offset state →
      ∃ final, bufferLoop transfer length offset state = (asInt length, final) ∧
        invariant length final := by
  intro offset state
  induction offset, state using bufferLoop.induct transfer length with
  | case1 offset state hmore rt after htransfer hfailed =>
    intro _ hinvariant
    obtain ⟨count, next, hmoved, hpos, _⟩ := hstep offset state hmore hinvariant
    rw [htransfer] at hmoved
    have hrt := congrArg Prod.fst hmoved
    simp only at hrt
    omega
  | case2 offset state hmore rt after htransfer hmoving ih =>
    intro _ hinvariant
    obtain ⟨count, next, hmoved, hpos, hle, hnext⟩ := hstep offset state hmore hinvariant
    rw [htransfer] at hmoved
    obtain ⟨hrt, hafter⟩ := Prod.mk.inj hmoved
    subst hrt hafter
    rw [Int.toNat_natCast] at ih
    obtain ⟨final, hloop, hfinal⟩ := ih (by omega) hnext
    refine ⟨final, ?_, hfinal⟩
    rw [bufferLoop, if_pos hmore, htransfer]
    simp only [hmoving, if_false, Int.toNat_natCast, hloop]
  | case3 offset state hdone =>
    intro hoffset hinvariant
    have hend : offset = length := by omega
    rw [bufferLoop, if_neg hdone]
    exact ⟨state, by rw [hend], hend ▸ hinvariant⟩

/-- Assumes: from a state of the invariant every transfer moves at least one byte, at most what is
asked, and keeps the invariant. The loop of the `ByteArray` variants ends with nothing left to move,
and zero is what it returns. -/
theorem arrayLoop_rule {transfer : ℕ → σ → Except Fault (ℤ × σ)} (invariant : ℕ → σ → Prop)
    (hstep : ∀ (length : ℕ) (state : σ), 0 < length → invariant length state →
      ∃ (count : ℕ) (after : σ), transfer length state = .ok (↑count, after) ∧
        0 < count ∧ count ≤ length ∧ invariant (length - count) after) :
    ∀ (length : ℕ) (state : σ), invariant length state →
      ∃ final, arrayLoop transfer length state = .ok (0, final) ∧ invariant 0 final := by
  intro length
  induction length using Nat.strong_induction_on with
  | _ length ih =>
    intro state hinvariant
    by_cases hmore : 0 < length
    · obtain ⟨count, after, hmoved, hpos, hle, hnext⟩ := hstep length state hmore hinvariant
      obtain ⟨final, hloop, hfinal⟩ := ih (length - count) (by omega) after hnext
      refine ⟨final, ?_, hfinal⟩
      have hpositive : ¬ (count : ℤ) ≤ 0 := by omega
      rw [arrayLoop, if_pos hmore, hmoved]
      simp only [hpositive, if_false, Int.toNat_natCast, hloop]
    · have hend : length = 0 := by omega
      subst hend
      refine ⟨state, ?_, hinvariant⟩
      rw [arrayLoop, if_neg hmore]
      rfl

/-- Assumes: every transfer that returns keeps the invariant. So does a loop of the `ByteArray`
variants that returns, and what it returns is never positive. -/
theorem arrayLoop_keeps {transfer : ℕ → σ → Except Fault (ℤ × σ)} (invariant : σ → Prop)
    (hstep : ∀ (length : ℕ) (state after : σ) (rt : ℤ), invariant state →
      transfer length state = .ok (rt, after) → invariant after) :
    ∀ (length : ℕ) (state final : σ) (rt : ℤ), invariant state →
      arrayLoop transfer length state = .ok (rt, final) → rt ≤ 0 ∧ invariant final := by
  intro length
  induction length using Nat.strong_induction_on with
  | _ length ih =>
    intro state final rt hinvariant hloop
    by_cases hmore : 0 < length
    · rw [arrayLoop, if_pos hmore] at hloop
      cases hmoved : transfer length state with
      | error fault =>
        rw [hmoved] at hloop
        cases hloop
      | ok moved =>
        obtain ⟨count, after⟩ := moved
        have hafter := hstep length state after count hinvariant hmoved
        rw [hmoved] at hloop
        simp only at hloop
        by_cases hfailed : count ≤ 0
        · rw [if_pos hfailed] at hloop
          cases hloop
          exact ⟨hfailed, hafter⟩
        · rw [if_neg hfailed] at hloop
          exact ih (length - count.toNat) (by omega) after final rt hafter hloop
    · rw [arrayLoop, if_neg hmore] at hloop
      have hend : length = 0 := by omega
      subst hend
      cases hloop
      exact ⟨le_refl _, hinvariant⟩

end Loops

section Transfers

variable (counts : ℕ → ℕ) (incoming : ℕ → UInt8) (junk : ℕ → ℕ → UInt8)

theorem transferred_le (turn requested : ℕ) : transferred counts turn requested ≤ requested :=
  Nat.min_le_left _ _

theorem transferred_pos (turn : ℕ) {requested : ℕ} (hrequested : 0 < requested) :
    0 < transferred counts turn requested := by
  unfold transferred maxTransfer
  omega

/-- A call of `send` on a connected socket puts the first bytes of the buffer on the wire. -/
theorem Socket.send_eq {s : Socket} (hconnected : s.connected = true) (buf : List UInt8) :
    s.send counts buf = ((transferred counts s.turn buf.length : ℤ),
      { s with
        turn := s.turn + 1
        wire := s.wire ++ buf.take (transferred counts s.turn buf.length) }) := by
  rw [Socket.send, if_pos hconnected]

/-! ### The raw-buffer variants -/

/-- Assumes: a buffer that holds the bytes, and a connected socket. The raw variant of
`writeFixSize` sends every byte once and in order, and returns their number. -/
theorem Stream.writeFixSize_eq {buffer : List UInt8} {length : ℕ} {s : Socket}
    (hbuffer : length ≤ buffer.length) (hconnected : s.connected = true) :
    ∃ sent, Stream.writeFixSize counts buffer length s = (asInt length, sent) ∧
      sent.wire = s.wire ++ buffer.take length := by
  let invariant : ℕ → Socket → Prop := fun offset t ↦
    t.connected = true ∧ t.wire = s.wire ++ buffer.take offset
  have hstart : invariant 0 s := ⟨hconnected, by rw [List.take_zero, List.append_nil]⟩
  have hstep : ∀ (offset : ℕ) (t : Socket), offset < length → invariant offset t →
      ∃ (count : ℕ) (after : Socket),
        SocketStream.write counts buffer offset (length - offset) t = (↑count, after) ∧
        0 < count ∧ count ≤ length - offset ∧ invariant (offset + count) after := by
    rintro offset t hmore ⟨htconnected, hwire⟩
    have hasked : ((buffer.drop offset).take (length - offset)).length = length - offset := by
      rw [List.length_take, List.length_drop]
      omega
    have hle := transferred_le counts t.turn (length - offset)
    have hwrite : SocketStream.write counts buffer offset (length - offset) t = _ :=
      (if_pos htconnected).trans (Socket.send_eq counts htconnected _)
    rw [hasked] at hwrite
    refine ⟨_, _, hwrite, transferred_pos counts t.turn (by omega), hle, htconnected, ?_⟩
    rw [hwire, List.take_take, Nat.min_eq_left hle, List.append_assoc, ← List.take_add]
  unfold Stream.writeFixSize
  by_cases hzero : length = 0
  · subst hzero
    exact ⟨s, if_pos rfl, hstart.2⟩
  · rw [if_neg hzero]
    obtain ⟨sent, hloop, hsent⟩ := bufferLoop_rule invariant hstep 0 s (Nat.zero_le _) hstart
    exact ⟨sent, hloop, hsent.2⟩

/-- Assumes: a buffer with room for the bytes, and a connected socket. The raw variant of
`readFixSize` stores every byte once and in order, and returns their number. -/
theorem Stream.readFixSize_eq {buffer : List UInt8} {length : ℕ} {s : Socket}
    (hbuffer : length ≤ buffer.length) (hconnected : s.connected = true) :
    ∃ filled rest, Stream.readFixSize counts incoming buffer length s =
        (asInt length, filled, rest) ∧
      filled.take length = (List.range length).map fun k ↦ incoming (s.received + k) := by
  let invariant : ℕ → List UInt8 × Socket → Prop := fun offset state ↦
    state.2.connected = true ∧ state.2.received = s.received + offset ∧
      state.1.length = buffer.length ∧
      state.1.take offset = (List.range offset).map fun k ↦ incoming (s.received + k)
  have hstart : invariant 0 (buffer, s) := ⟨hconnected, rfl, rfl, rfl⟩
  have hstep : ∀ (offset : ℕ) (state : List UInt8 × Socket), offset < length →
      invariant offset state → ∃ (count : ℕ) (after : List UInt8 × Socket),
        SocketStream.read counts incoming offset (length - offset) state = (↑count, after) ∧
        0 < count ∧ count ≤ length - offset ∧ invariant (offset + count) after := by
    rintro offset ⟨filled, t⟩ hmore ⟨htconnected, hreceived, hlength, htake⟩
    simp only at htconnected hreceived hlength htake
    have hle := transferred_le counts t.turn (length - offset)
    have hpos := transferred_pos counts t.turn (show 0 < length - offset by omega)
    generalize hcount : transferred counts t.turn (length - offset) = count at hle hpos
    have hdata : ((List.range count).map fun k ↦ incoming (t.received + k)).length = count := by
      rw [List.length_map, List.length_range]
    refine ⟨count, (overwrite filled offset ((List.range count).map fun k ↦
      incoming (t.received + k)), { t with turn := t.turn + 1, received := t.received + count }),
      ?_, hpos, hle, htconnected, ?_, ?_, ?_⟩
    · simp only [SocketStream.read, Socket.recv, htconnected, hcount, if_true]
    · change t.received + count = _
      rw [hreceived, Nat.add_assoc]
    · change (overwrite filled offset _).length = _
      rw [length_overwrite (by omega), hlength]
    · change (overwrite filled offset _).take (offset + count) = _
      have hstored := take_overwrite ((List.range count).map fun k ↦ incoming (t.received + k))
        (show offset ≤ filled.length by omega)
      rw [hdata] at hstored
      rw [hstored, htake, hreceived, List.range_add, List.map_append, List.map_map]
      simp only [Function.comp_def, Nat.add_assoc]
  unfold Stream.readFixSize
  by_cases hzero : length = 0
  · subst hzero
    exact ⟨buffer, s, if_pos rfl, rfl⟩
  · rw [if_neg hzero]
    obtain ⟨⟨filled, rest⟩, hloop, hfinal⟩ :=
      bufferLoop_rule invariant hstep 0 (buffer, s) (Nat.zero_le _) hstart
    exact ⟨filled, rest, hloop, hfinal.2.2.2⟩

/-! ### The `ByteArray` variants -/

/-- What the `ByteArray` variant of `writeFixSize` puts on the wire: every transfer starts with the
first byte again. -/
def resent (bytes : List UInt8) (turn remaining : ℕ) : List UInt8 :=
  if 0 < remaining then
    bytes.take (transferred counts turn remaining) ++
      resent bytes (turn + 1) (remaining - transferred counts turn remaining)
  else []
termination_by remaining
decreasing_by
  have hpos := transferred_pos counts turn (show 0 < remaining by assumption)
  omega

/-- Assumes: a well-formed array with the bytes readable, and a connected socket. The `ByteArray`
variant of `writeFixSize` never moves the position, and returns zero. -/
theorem Stream.writeFixSizeArray_eq {b : ByteArray} (hb : b.WellFormed) {length : ℕ} {s : Socket}
    (hreadable : length ≤ b.getReadableSize) (hconnected : s.connected = true) :
    ∃ sent, Stream.writeFixSizeArray counts b length s = .ok (0, sent) ∧
      sent.wire = s.wire ++ resent counts (b.text.drop b.position) s.turn length := by
  let invariant : ℕ → Socket → Prop := fun remaining t ↦
    remaining ≤ b.getReadableSize ∧ t.connected = true ∧
      t.wire ++ resent counts (b.text.drop b.position) t.turn remaining =
        s.wire ++ resent counts (b.text.drop b.position) s.turn length
  have hstep : ∀ (remaining : ℕ) (t : Socket), 0 < remaining → invariant remaining t →
      ∃ (count : ℕ) (after : Socket),
        SocketStream.writeArray counts b remaining t = .ok (↑count, after) ∧
        0 < count ∧ count ≤ remaining ∧ invariant (remaining - count) after := by
    rintro remaining t hmore ⟨hbound, htconnected, hwire⟩
    obtain ⟨slices, hslices, -, hgather⟩ := ByteArray.addReadBuffers_eq hb.toPlaced remaining
    rw [Nat.min_eq_left hbound] at hslices hgather
    have hasked : ((b.text.drop b.position).take remaining).length = remaining := by
      have htext := hb.shaped.length_text
      have hsize := hb.size_le
      have hposition := hb.position_le
      rw [ByteArray.getReadableSize] at hbound
      rw [List.length_take, List.length_drop]
      omega
    have hle := transferred_le counts t.turn remaining
    have hwrite : SocketStream.writeArray counts b remaining t =
        .ok (t.send counts ((b.text.drop b.position).take remaining)) := by
      simp only [SocketStream.writeArray, if_pos htconnected, hslices, bind, Except.bind, pure,
        Except.pure, hgather]
    rw [Socket.send_eq counts htconnected, hasked] at hwrite
    refine ⟨_, _, hwrite, transferred_pos counts t.turn hmore, hle, by omega, htconnected, ?_⟩
    rw [← hwire, resent.eq_def counts _ t.turn, if_pos hmore, List.take_take, Nat.min_eq_left hle,
      List.append_assoc]
  unfold Stream.writeFixSizeArray
  by_cases hzero : length = 0
  · subst hzero
    refine ⟨s, if_pos rfl, ?_⟩
    rw [resent, if_neg (Nat.lt_irrefl 0), List.append_nil]
  · rw [if_neg hzero]
    obtain ⟨sent, hloop, _, _, hwire⟩ :=
      arrayLoop_rule invariant hstep length s ⟨hreadable, hconnected, rfl⟩
    rw [resent, if_neg (Nat.lt_irrefl 0), List.append_nil] at hwire
    exact ⟨sent, hloop, hwire⟩

theorem addCapacity_position (size : ℕ) (b : ByteArray) :
    (ByteArray.addCapacity junk size b).position = b.position := by
  unfold ByteArray.addCapacity
  simp only
  split_ifs <;> rfl

theorem addWriteBuffers_position {len : ℕ} {b after : ByteArray} {slices : ℕ × List Iovec}
    (hslices : ByteArray.addWriteBuffers junk len b = .ok slices after) :
    after.position = b.position := by
  rw [← addCapacity_position junk len b]
  unfold ByteArray.addWriteBuffers at hslices
  split_ifs at hslices with hzero
  · cases hslices
    exact (addCapacity_position junk len b).symm
  · simp only at hslices
    split at hslices
    · cases hslices
    · split at hslices
      · cases hslices
      · split at hslices
        · cases hslices
        · cases hslices
          rfl

/-- A `ByteArray` variant of `readFixSize` that returns leaves the position where it was, and what
it returns is never positive. -/
theorem Stream.readFixSizeArray_position {b after : ByteArray} {length : ℕ} {s rest : Socket}
    {rt : ℤ}
    (hread : Stream.readFixSizeArray junk counts incoming b length s = .ok (rt, after, rest)) :
    rt ≤ 0 ∧ after.position = b.position := by
  let invariant : ByteArray × Socket → Prop := fun state ↦ state.1.position = b.position
  have hstep : ∀ (asked : ℕ) (state final : ByteArray × Socket) (moved : ℤ), invariant state →
      SocketStream.readArray junk counts incoming asked state = .ok (moved, final) →
      invariant final := by
    rintro asked ⟨filling, t⟩ final moved hinvariant hmoved
    simp only [SocketStream.readArray] at hmoved
    split_ifs at hmoved
    · cases hslices : ByteArray.addWriteBuffers junk asked filling with
      | error fault state =>
        rw [hslices] at hmoved
        cases hmoved
      | ok slices grown =>
        rw [hslices] at hmoved
        cases hmoved
        exact (addWriteBuffers_position junk hslices).trans hinvariant
    · cases hmoved
      exact hinvariant
  unfold Stream.readFixSizeArray at hread
  split_ifs at hread
  · cases hread
    exact ⟨le_refl _, rfl⟩
  · exact arrayLoop_keeps invariant hstep length (b, s) (after, rest) rt rfl hread

/-! ### Agreement of the two variants -/

/-- The `ByteArray` variant of `writeFixSize` returns the count and puts the same bytes on the wire
as the raw variant does from a buffer with the first bytes of `toString`. -/
def SendsLikeBuffer (b : ByteArray) (n : ℕ) (s : Socket) : Prop :=
  ∃ bytes sent, b.toString = .ok bytes ∧
    Stream.writeFixSizeArray counts b n s = .ok ((n : ℤ), sent) ∧
    sent.wire = (Stream.writeFixSize counts (bytes.take n) n s).2.wire

/-- The `ByteArray` variant of `readFixSize` returns the count and stores from the position on the
bytes that the raw variant stores in a buffer of that length. -/
def ReceivesLikeBuffer (b : ByteArray) (n : ℕ) (s : Socket) : Prop :=
  ∃ after rest, Stream.readFixSizeArray junk counts incoming b n s = .ok ((n : ℤ), after, rest) ∧
    ∀ buffer : List UInt8, buffer.length = n →
      (after.text.drop b.position).take n =
        (Stream.readFixSize counts incoming buffer n s).2.1

/-- Assumes: at least one byte. Neither `ByteArray` variant ever agrees with its raw variant: what
they return is never the count. -/
theorem fixSize_never_agrees (b : ByteArray) {n : ℕ} (hn : 1 ≤ n) (s : Socket) :
    (n ≤ b.getReadableSize → ¬ SendsLikeBuffer counts b n s) ∧
      ¬ ReceivesLikeBuffer counts incoming junk b n s := by
  constructor
  · rintro _ ⟨bytes, sent, _, hwrite, _⟩
    rw [Stream.writeFixSizeArray, if_neg (by omega)] at hwrite
    have hreturn :=
      arrayLoop_keeps (fun _ ↦ True) (fun _ _ _ _ _ _ ↦ trivial) n s sent n trivial hwrite
    omega
  · rintro ⟨after, rest, hread, _⟩
    have hreturn := Stream.readFixSizeArray_position counts incoming junk hread
    omega

end Transfers

/-- Four readable bytes in one block. -/
def fourBytes : ByteArray where
  baseSize := 8
  position := 0
  capacity := 8
  size := 4
  endian := .little
  root := [⟨[1, 2, 3, 4, 0, 0, 0, 0]⟩]
  curr := some 0

theorem wellFormed_fourBytes : fourBytes.WellFormed where
  baseSize_pos := by decide
  root_ne := by decide
  block_size := by decide
  capacity_eq := rfl
  position_le := by decide
  size_le := by decide
  curr_eq := rfl

/-- The transfer of four bytes in two halves. -/
theorem fixSize_never_agrees_fourBytes :
    4 ≤ fourBytes.getReadableSize ∧ ¬ SendsLikeBuffer (fun _ ↦ 2) fourBytes 4 ⟨true, 0, [], 0⟩ ∧
      ¬ ReceivesLikeBuffer (fun _ ↦ 2) (fun k ↦ UInt8.ofNat k) (fun _ _ ↦ 0) fourBytes 4
        ⟨true, 0, [], 0⟩ := by
  have hnever := fixSize_never_agrees (fun _ ↦ 2) (fun k ↦ UInt8.ofNat k) (fun _ _ ↦ 0) fourBytes
    (show 1 ≤ 4 by decide) ⟨true, 0, [], 0⟩
  exact ⟨by decide, hnever.1 (by decide), hnever.2⟩

/-- The raw variant sends `1, 2, 3, 4` and returns `4`; the `ByteArray` variant sends `1, 2, 1, 2`
and returns `0`. -/
theorem writeFixSizeArray_halves :
    fourBytes.WellFormed ∧ 4 ≤ fourBytes.getReadableSize ∧
      (∃ sent, Stream.writeFixSize (fun _ ↦ 2) [1, 2, 3, 4] 4 ⟨true, 0, [], 0⟩ = (4, sent) ∧
        sent.wire = [1, 2, 3, 4]) ∧
      (∃ sent, Stream.writeFixSizeArray (fun _ ↦ 2) fourBytes 4 ⟨true, 0, [], 0⟩ = .ok (0, sent) ∧
        sent.wire = [1, 2, 1, 2]) ∧
      ¬ SendsLikeBuffer (fun _ ↦ 2) fourBytes 4 ⟨true, 0, [], 0⟩ := by
  obtain ⟨sent, hwrite, hwire⟩ := Stream.writeFixSizeArray_eq (fun _ ↦ 2) wellFormed_fourBytes
    (show 4 ≤ fourBytes.getReadableSize by decide)
    (show (⟨true, 0, [], 0⟩ : Socket).connected from rfl)
  have hresent :
      resent (fun _ ↦ 2) (fourBytes.text.drop fourBytes.position) 0 4 = [1, 2, 1, 2] := by
    simp [resent, transferred, maxTransfer, fourBytes, ByteArray.text]
  refine ⟨wellFormed_fourBytes, by decide, ?_, ⟨sent, hwrite, hwire.trans hresent⟩, ?_⟩
  · exact Stream.writeFixSize_eq (fun _ ↦ 2) (by decide) rfl
  · rintro ⟨bytes, other, _, hcount, _⟩
    rw [hwrite] at hcount
    cases hcount

end Cczoe.Net
