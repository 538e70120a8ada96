import Cczoe.Net.FixedSizeTransfer

/-!
# Fixed-size transfers over any stream

`readFixSize` and `writeFixSize` on a raw buffer, over a stream that answers its calls as it likes:
`results k` is what call `k` returns, zero or negative as it is and positive up to the number of
bytes asked for. The answers are arbitrary, so this is every stream a subclass of `Stream` can be.

`bufferLoop_script` is the rule for the loop: an invariant counted in calls holds when it ends, and
it ends either with the whole length moved or at the first answer that is not positive.
`fixSize_script` reads off what is returned, what the buffer holds and what has been sent.
-/

set_option autoImplicit false
set_option relaxedAutoImplicit false

namespace Cczoe.Net

open Foundations.BlockStorage

/-! ### The functions over a stream -/

namespace Stream

/-- `readFixSize(buffer, length)` over the `read` of the stream. -/
def readFixSizeOf {σ : Type} (read : ℕ → ℕ → σ → ℤ × σ) (length : ℕ) (state : σ) : ℤ × σ :=
  if length = 0 then (0, state) else bufferLoop read length 0 state

/-- `writeFixSize(buffer, length)` over the `write` of the stream. -/
def writeFixSizeOf {σ : Type} (write : ℕ → ℕ → σ → ℤ × σ) (length : ℕ) (state : σ) : ℤ × σ :=
  if length = 0 then (0, state) else bufferLoop write length 0 state

theorem readFixSize_eq_of (counts : ℕ → ℕ) (incoming : ℕ → UInt8) (buffer : List UInt8)
    (length : ℕ) (s : Socket) :
    readFixSize counts incoming buffer length s =
      readFixSizeOf (SocketStream.read counts incoming) length (buffer, s) := rfl

theorem writeFixSize_eq_of (counts : ℕ → ℕ) (buffer : List UInt8) (length : ℕ) (s : Socket) :
    writeFixSize counts buffer length s =
      writeFixSizeOf (SocketStream.write counts buffer) length s := rfl

end Stream

/-! ### A stream with scripted answers -/

section Script

variable (results : ℕ → ℤ)

/-- What call `call` returns when it is asked for `requested` bytes. -/
def answer (call requested : ℕ) : ℤ := min (results call) requested

/-- The other side of a stream: the calls made so far, the bytes taken off it, the bytes sent. -/
structure Peer where
  call : ℕ
  received : ℕ
  sent : List UInt8
  deriving DecidableEq, Repr

namespace ScriptedStream

/-- `read(buffer + offset, length)`, where byte `k` of the stream is `stream k`. -/
def read (stream : ℕ → UInt8) (offset length : ℕ) (state : List UInt8 × Peer) :
    ℤ × List UInt8 × Peer :=
  let (buffer, peer) := state
  let rt := answer results peer.call length
  (rt, overwrite buffer offset ((List.range rt.toNat).map fun k ↦ stream (peer.received + k)),
    { peer with call := peer.call + 1, received := peer.received + rt.toNat })

/-- `write(buffer + offset, length)`. -/
def write (buffer : List UInt8) (offset length : ℕ) (peer : Peer) : ℤ × Peer :=
  let rt := answer results peer.call length
  (rt, { peer with
    call := peer.call + 1
    sent := peer.sent ++ ((buffer.drop offset).take length).take rt.toNat })

end ScriptedStream

/-- The bytes moved by the first calls of a transfer of `length` bytes. -/
def moved (length : ℕ) : ℕ → ℕ
  | 0 => 0
  | calls + 1 => moved length calls + (answer results calls (length - moved length calls)).toNat

/-- The positive answers add up to the length before any other answer occurs. -/
def Completes (length : ℕ) : Prop :=
  ∃ calls, (∀ call < calls, 0 < results call) ∧ moved results length calls = length

/-- The first answer that is not positive comes at `call`, before the length is reached. -/
def FailsAt (length call : ℕ) : Prop :=
  (∀ earlier < call, 0 < results earlier) ∧ moved results length call < length ∧ results call ≤ 0

theorem moved_le (length calls : ℕ) : moved results length calls ≤ length := by
  induction calls with
  | zero => exact Nat.zero_le _
  | succ calls ih =>
    rw [moved, answer]
    omega

theorem moved_mono (length : ℕ) : Monotone (moved results length) := by
  apply monotone_nat_of_le_succ
  intro calls
  rw [moved]
  exact Nat.le_add_right _ _

/-- A transfer that fails does not complete. -/
theorem FailsAt.not_completes {length call : ℕ} (hfails : FailsAt results length call) :
    ¬ Completes results length := by
  rintro ⟨calls, hpositive, hmoved⟩
  obtain ⟨-, hshort, hfailed⟩ := hfails
  have hle : calls ≤ call := by
    by_contra hlater
    have hlast := hpositive call (by omega)
    omega
  have hmono := moved_mono results length hle
  omega

/-- How a run of the loop ends: with the length moved and returned, or at the first answer that is
not positive, which is returned and moves nothing. -/
inductive EndsAfter (length : ℕ) : ℕ → ℤ → Prop
  | completed {calls : ℕ} (hpositive : ∀ call < calls, 0 < results call)
      (hmoved : moved results length calls = length) : EndsAfter length calls (asInt length)
  | failed {call : ℕ} (hfails : FailsAt results length call) :
      EndsAfter length (call + 1) (results call)

theorem answer_of_nonpos {call requested : ℕ} (hfailed : results call ≤ 0) :
    answer results call requested = results call := by
  rw [answer]
  omega

theorem answer_pos {call requested : ℕ} (hpositive : 0 < results call)
    (hrequested : 0 < requested) : 0 < answer results call requested := by
  rw [answer]
  omega

variable {results}

/-- Assumes: every call answers as scripted and keeps an invariant counted in calls. The raw loop
ends in the invariant, completed or failed. -/
theorem bufferLoop_script {σ : Type} {transfer : ℕ → ℕ → σ → ℤ × σ} {length : ℕ}
    (invariant : ℕ → σ → Prop)
    (hstep : ∀ (calls : ℕ) (state : σ), moved results length calls < length →
      invariant calls state →
      ∃ after, transfer (moved results length calls) (length - moved results length calls) state =
          (answer results calls (length - moved results length calls), after) ∧
        invariant (calls + 1) after) :
    ∀ (offset : ℕ) (state : σ) (calls : ℕ), offset = moved results length calls →
      (∀ call < calls, 0 < results call) → invariant calls state →
      ∃ total rt final, bufferLoop transfer length offset state = (rt, final) ∧
        EndsAfter results length total rt ∧ invariant total final := by
  intro offset state
  induction offset, state using bufferLoop.induct transfer length with
  | case1 offset state hmore rt after htransfer hfailed =>
    rintro calls rfl hpositive hinvariant
    obtain ⟨next, hcall, hnext⟩ := hstep calls state hmore hinvariant
    rw [htransfer] at hcall
    obtain ⟨hrt, rfl⟩ := Prod.mk.inj hcall
    have hresult : results calls ≤ 0 := by
      by_contra hmoves
      have hsome := answer_pos results (Int.lt_of_not_ge hmoves)
        (show 0 < length - moved results length calls by omega)
      omega
    rw [answer_of_nonpos results hresult] at hrt
    subst hrt
    refine ⟨calls + 1, results calls, after, ?_, .failed ⟨hpositive, hmore, hresult⟩, hnext⟩
    rw [bufferLoop, if_pos hmore, htransfer]
    simp only [hfailed, if_true]
  | case2 offset state hmore rt after htransfer hmoving ih =>
    rintro calls rfl hpositive hinvariant
    obtain ⟨next, hcall, hnext⟩ := hstep calls state hmore hinvariant
    rw [htransfer] at hcall
    obtain ⟨hrt, rfl⟩ := Prod.mk.inj hcall
    have hresult : 0 < results calls := by
      by_contra hstops
      rw [answer_of_nonpos results (Int.le_of_not_gt hstops)] at hrt
      omega
    have hearlier : ∀ call < calls + 1, 0 < results call := by
      intro call hlt
      rcases Nat.lt_succ_iff_lt_or_eq.mp hlt with hbefore | rfl
      · exact hpositive call hbefore
      · exact hresult
    obtain ⟨total, final, stop, hloop, hends, hfinal⟩ :=
      ih (calls + 1) (by rw [moved, hrt]) hearlier hnext
    refine ⟨total, final, stop, ?_, hends, hfinal⟩
    rw [bufferLoop, if_pos hmore, htransfer]
    simp only [hmoving, if_false, hloop]
  | case3 offset state hdone =>
    rintro calls rfl hpositive hinvariant
    have hmoved : moved results length calls = length := by
      have hle := moved_le results length calls
      omega
    refine ⟨calls, asInt length, state, ?_, .completed hpositive hmoved, hinvariant⟩
    rw [bufferLoop, if_neg hdone, hmoved]

/-- Assumes: a length that is a positive `int`. A run that ends returns the length exactly when the
transfer completes, and the first answer that is not positive otherwise. -/
theorem EndsAfter.returns {length total : ℕ} {rt : ℤ} (hends : EndsAfter results length total rt)
    (hlength : 1 ≤ length) (hmax : length < 2 ^ 31) :
    (rt = length ↔ Completes results length) ∧
      (Completes results length → moved results length total = length) ∧
      (¬ Completes results length → ∃ call, FailsAt results length call ∧ rt = results call ∧
        moved results length total = moved results length call) := by
  cases hends with
  | completed hpositive hmoved =>
    have hcompletes : Completes results length := ⟨total, hpositive, hmoved⟩
    exact ⟨iff_of_true (asInt_eq hmax) hcompletes, fun _ ↦ hmoved,
      fun hnot ↦ absurd hcompletes hnot⟩
  | @failed call hfails =>
    have hnot := hfails.not_completes
    have hreturn : results call ≠ length := by
      have hstop := hfails.2.2
      omega
    refine ⟨iff_of_false hreturn hnot, fun hcompletes ↦ absurd hcompletes hnot,
      fun _ ↦ ⟨call, hfails, rfl, ?_⟩⟩
    have hstop := hfails.2.2
    rw [moved, answer_of_nonpos results hstop]
    omega

end Script

/-! ### The two functions -/

section Transfers

variable (results : ℕ → ℤ) (stream : ℕ → UInt8)

/-- The first bytes of the stream. -/
def firstBytes (count : ℕ) : List UInt8 := (List.range count).map stream

theorem length_firstBytes (count : ℕ) : (firstBytes stream count).length = count := by
  rw [firstBytes, List.length_map, List.length_range]

theorem firstBytes_add (first second : ℕ) :
    firstBytes stream (first + second) =
      firstBytes stream first ++ (List.range second).map fun k ↦ stream (first + k) := by
  rw [firstBytes, firstBytes, List.range_add, List.map_append, List.map_map]
  rfl

/-- `readFixSize` ends after some calls, with the bytes they moved at the start of the buffer and
nothing else taken off the stream. -/
theorem readFixSize_ends (buffer : List UInt8) {length : ℕ} (hlength : 1 ≤ length) :
    ∃ total rt filled peer,
      Stream.readFixSizeOf (ScriptedStream.read results stream) length (buffer, ⟨0, 0, []⟩) =
        (rt, filled, peer) ∧
      EndsAfter results length total rt ∧
      filled = overwrite buffer 0 (firstBytes stream (moved results length total)) ∧
      peer.received = moved results length total := by
  let invariant : ℕ → List UInt8 × Peer → Prop := fun calls state ↦
    state.1 = overwrite buffer 0 (firstBytes stream (moved results length calls)) ∧
      state.2.call = calls ∧ state.2.received = moved results length calls
  have hstart : invariant 0 (buffer, ⟨0, 0, []⟩) := ⟨rfl, rfl, rfl⟩
  have hstep : ∀ (calls : ℕ) (state : List UInt8 × Peer), moved results length calls < length →
      invariant calls state → ∃ after,
        ScriptedStream.read results stream (moved results length calls)
            (length - moved results length calls) state =
          (answer results calls (length - moved results length calls), after) ∧
        invariant (calls + 1) after := by
    rintro calls ⟨filled, peer⟩ hmore ⟨hfilled, hcall, hreceived⟩
    simp only at hfilled hcall hreceived
    refine ⟨_, by rw [ScriptedStream.read, hcall], ?_, ?_, ?_⟩
    · have hbehind := overwrite_overwrite (firstBytes stream (moved results length calls))
        ((List.range (answer results calls (length - moved results length calls)).toNat).map
          fun k ↦ stream (moved results length calls + k)) (Nat.zero_le buffer.length)
      rw [length_firstBytes, Nat.zero_add, ← firstBytes_add] at hbehind
      rw [hfilled, hreceived, hbehind]
      rfl
    · rfl
    · simp only [hreceived]
      rfl
  obtain ⟨total, rt, ⟨filled, peer⟩, hloop, hends, hfilled, -, hreceived⟩ :=
    bufferLoop_script invariant hstep 0 (buffer, ⟨0, 0, []⟩) 0 rfl
      (fun _ hlt ↦ absurd hlt (Nat.not_lt_zero _)) hstart
  exact ⟨total, rt, filled, peer, by rw [Stream.readFixSizeOf, if_neg (by omega), hloop], hends,
    hfilled, hreceived⟩

/-- `writeFixSize` ends after some calls, with the bytes they moved sent in order. -/
theorem writeFixSize_ends (buffer : List UInt8) {length : ℕ} (hlength : 1 ≤ length) :
    ∃ total rt peer,
      Stream.writeFixSizeOf (ScriptedStream.write results buffer) length ⟨0, 0, []⟩ = (rt, peer) ∧
      EndsAfter results length total rt ∧
      peer.sent = buffer.take (moved results length total) := by
  let invariant : ℕ → Peer → Prop := fun calls peer ↦
    peer.sent = buffer.take (moved results length calls) ∧ peer.call = calls
  have hstart : invariant 0 ⟨0, 0, []⟩ := ⟨rfl, rfl⟩
  have hstep : ∀ (calls : ℕ) (peer : Peer), moved results length calls < length →
      invariant calls peer → ∃ after,
        ScriptedStream.write results buffer (moved results length calls)
            (length - moved results length calls) peer =
          (answer results calls (length - moved results length calls), after) ∧
        invariant (calls + 1) after := by
    rintro calls peer hmore ⟨hsent, hcall⟩
    refine ⟨_, by rw [ScriptedStream.write, hcall], ?_, rfl⟩
    have hle : (answer results calls (length - moved results length calls)).toNat ≤
        length - moved results length calls := by
      rw [answer]
      omega
    rw [hsent, List.take_take, Nat.min_eq_left hle, ← List.take_add]
    rfl
  obtain ⟨total, rt, peer, hloop, hends, hsent, -⟩ :=
    bufferLoop_script invariant hstep 0 ⟨0, 0, []⟩ 0 rfl
      (fun _ hlt ↦ absurd hlt (Nat.not_lt_zero _)) hstart
  exact ⟨total, rt, peer, by rw [Stream.writeFixSizeOf, if_neg (by omega), hloop], hends, hsent⟩

/-- Assumes: a length that is a positive `int`, and a buffer of that length at least. `readFixSize`
and `writeFixSize` return the length exactly when the positive answers of the stream add up to it
before any other; the buffer then holds the first bytes of the stream, the rest of it as before, and
every byte has been sent once and in order. Otherwise they return the first answer that is not
positive, with the bytes moved so far in place. -/
theorem fixSize_script {buffer : List UInt8} {n : ℕ} (hn : 1 ≤ n) (hmax : n < 2 ^ 31)
    (hbuffer : n ≤ buffer.length) :
    (∃ rt filled peer,
      Stream.readFixSizeOf (ScriptedStream.read results stream) n (buffer, ⟨0, 0, []⟩) =
        (rt, filled, peer) ∧
      (rt = n ↔ Completes results n) ∧ filled.length = buffer.length ∧
      (Completes results n → filled = firstBytes stream n ++ buffer.drop n ∧ peer.received = n) ∧
      (¬ Completes results n → ∃ call, FailsAt results n call ∧ rt = results call ∧
        filled = firstBytes stream (moved results n call) ++ buffer.drop (moved results n call) ∧
        peer.received = moved results n call)) ∧
    ∃ rt peer,
      Stream.writeFixSizeOf (ScriptedStream.write results buffer) n ⟨0, 0, []⟩ = (rt, peer) ∧
      (rt = n ↔ Completes results n) ∧
      (Completes results n → peer.sent = buffer.take n ∧ peer.sent.length = n) ∧
      (¬ Completes results n → ∃ call, FailsAt results n call ∧ rt = results call ∧
        peer.sent = buffer.take (moved results n call)) := by
  have hplaced (count : ℕ) : overwrite buffer 0 (firstBytes stream count) =
      firstBytes stream count ++ buffer.drop count := by
    rw [overwrite, List.take_zero, List.nil_append, length_firstBytes, Nat.zero_add]
  constructor
  · obtain ⟨total, rt, filled, peer, hread, hends, hfilled, hreceived⟩ :=
      readFixSize_ends results stream buffer hn
    obtain ⟨hreturns, hcompleted, hfailed⟩ := hends.returns hn hmax
    rw [hplaced] at hfilled
    refine ⟨rt, filled, peer, hread, hreturns, ?_, fun hcompletes ↦ ?_, fun hnot ↦ ?_⟩
    · have hle := moved_le results n total
      rw [hfilled, List.length_append, length_firstBytes, List.length_drop]
      omega
    · rw [hfilled, hreceived, hcompleted hcompletes]
      exact ⟨rfl, rfl⟩
    · obtain ⟨call, hfails, hrt, hmoved⟩ := hfailed hnot
      exact ⟨call, hfails, hrt, by rw [hfilled, hmoved], by rw [hreceived, hmoved]⟩
  · obtain ⟨total, rt, peer, hwrite, hends, hsent⟩ := writeFixSize_ends results buffer hn
    obtain ⟨hreturns, hcompleted, hfailed⟩ := hends.returns hn hmax
    refine ⟨rt, peer, hwrite, hreturns, fun hcompletes ↦ ?_, fun hnot ↦ ?_⟩
    · rw [hsent, hcompleted hcompletes]
      exact ⟨rfl, List.length_take_of_le hbuffer⟩
    · obtain ⟨call, hfails, hrt, hmoved⟩ := hfailed hnot
      exact ⟨call, hfails, hrt, by rw [hsent, hmoved]⟩

/-- A stream that gives two bytes and then fails with `-1`, asked for four. -/
theorem fixSize_script_two_of_four :
    (∃ rt filled peer,
      Stream.readFixSizeOf
          (ScriptedStream.read (fun call ↦ if call = 0 then 2 else -1) (fun k ↦ UInt8.ofNat k)) 4
          ([9, 9, 9, 9, 9], ⟨0, 0, []⟩) = (rt, filled, peer) ∧
      (rt = 4 ↔ Completes (fun call ↦ if call = 0 then 2 else -1) 4)) ∧
    ∃ rt peer,
      Stream.writeFixSizeOf
          (ScriptedStream.write (fun call ↦ if call = 0 then 2 else -1) [9, 9, 9, 9, 9]) 4
          ⟨0, 0, []⟩ = (rt, peer) ∧
      (rt = 4 ↔ Completes (fun call ↦ if call = 0 then 2 else -1) 4) := by
  obtain ⟨⟨rt, filled, peer, hread, hreturns, -⟩, ⟨rt', peer', hwrite, hreturns', -⟩⟩ :=
    fixSize_script (fun call ↦ if call = 0 then 2 else -1) (fun k ↦ UInt8.ofNat k)
      (show 1 ≤ 4 by decide) (by decide) (show 4 ≤ [9, 9, 9, 9, 9].length by decide)
  exact ⟨⟨rt, filled, peer, hread, hreturns⟩, ⟨rt', peer', hwrite, hreturns'⟩⟩

end Transfers

end Cczoe.Net
