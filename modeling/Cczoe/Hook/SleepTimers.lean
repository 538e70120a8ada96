import Cczoe.Hook.Wrappers
import Cczoe.Timer.FiringTimes

/-!
# What wakes a sleeping fiber

With hooking on, `sleep`, `usleep` and `nanosleep` suspend the calling fiber until a timer schedules
it again. `SleepsUntilDue` says that the timer is in `m_timers` when the fiber yields, and due after
the duration that was asked for.

`sleep` yields first, so nothing is there that would resume the fiber. The other two add the timer
first; it is due when it should be unless the duration or the deadline overflows
(`sleepsUntilDue_iff`). Whatever happens to the timers while the fiber sleeps, its timer stays in
the set until `getExpiredCb` hands its callback over (`Consistent.waits_in_every_run`).
-/

set_option autoImplicit false
set_option relaxedAutoImplicit false

namespace Cczoe.Timers

open Cczoe.Foundations

/-! ### A timer that nobody has a pointer to -/

namespace TimerManager

variable {γ κ : Type} {s : TimerManager γ κ} {timer : Address}

/-- A timer waits in the set with a callback. -/
def Waits (s : TimerManager γ κ) (timer : Address) (value : Timer γ κ) : Prop :=
  timer ∈ s.timers ∧ s.memory timer = value

/-- Assumes: a call that is not about the timer, which has a callback. The timer goes on waiting,
or the call returns its callback. -/
theorem Consistent.step_waits (hs : s.Consistent) {value : Timer γ κ} (hwaits : s.Waits timer value)
    (hcb : value.cb.isSome) {action : Action γ κ} {outcome : Outcome γ κ}
    {next : TimerManager γ κ} (hguard : s.Guard action) (htarget : action.target ≠ some timer)
    (hstep : TimerManager.step action s = .ok (outcome, next)) :
    next.Waits timer value ∨ ∃ cbs, outcome = .callbacks cbs ∧ value.cb ∈ cbs := by
  obtain ⟨hmem, rfl⟩ := hwaits
  obtain ⟨_, _, hreturned, hnext⟩ := hs.step hguard
  cases hstep.symm.trans hreturned
  -- a live timer with a callback is in the set of every consistent manager
  have hstays : timer ∈ next.live → next.memory timer = s.memory timer →
      next.Waits timer (s.memory timer) := by
    intro hlive hmemory
    exact ⟨hnext.armed timer hlive (hmemory ▸ hcb), hmemory⟩
  cases haction : action.target with
  | some address =>
    have hne : timer ≠ address := by
      rintro rfl
      exact htarget haction
    have hframe := step_frame haction hstep
    exact Or.inl (hstays (hframe.live timer (hs.tracked timer hmem) hne) (hframe.memory timer hne))
  | none =>
    cases action with
    | getExpiredCb probe now =>
      cases hstep
      by_cases hfires : s.Fires probe now timer
      · refine Or.inr ⟨_, rfl, ?_⟩
        rw [hs.getExpiredCb_callbacks]
        exact List.mem_map.mpr ⟨timer, hfires, rfl⟩
      · refine Or.inl (hstays ?_ ?_)
        · rw [getExpiredCb_live]
          exact hs.tracked timer hmem
        · rw [TimerManager.getExpiredCb]
          split_ifs
          · rfl
          · exact expireAll_memory_of_notMem hfires
    | _ => cases haction

/-- Assumes: a timer with a callback that no call of a run is about. It waits at the end of the run,
or a call of `getExpiredCb` has returned its callback. -/
theorem Consistent.waits_in_every_run (hs : s.Consistent) {value : Timer γ κ}
    (hwaits : s.Waits timer value) (hcb : value.cb.isSome)
    {trace : List (Action γ κ × Outcome γ κ)} {final : TimerManager γ κ}
    (hrun : Run TimerManager.step Guard s trace final)
    (hspared : ∀ entry ∈ trace, entry.1.target ≠ some timer) :
    final.Waits timer value ∨
      ∃ entry ∈ trace, ∃ cbs, entry.2 = .callbacks cbs ∧ value.cb ∈ cbs := by
  let reached : List (Action γ κ × Outcome γ κ) → TimerManager γ κ → Prop := fun trace now ↦
    now.Consistent ∧ ((∀ entry ∈ trace, entry.1.target ≠ some timer) →
      now.Waits timer value ∨
        ∃ entry ∈ trace, ∃ cbs, entry.2 = .callbacks cbs ∧ value.cb ∈ cbs)
  have hstart : reached [] s := ⟨hs, fun _ ↦ Or.inl hwaits⟩
  refine (hrun.history_invariant hstart ?_).2 hspared
  rintro trace before action outcome next ⟨hbefore, hnow⟩ hguard hstep
  obtain ⟨_, _, hreturned, hnext⟩ := hbefore.step hguard
  cases hstep.symm.trans hreturned
  refine ⟨hnext, fun hall ↦ ?_⟩
  rcases hnow fun entry hentry ↦ hall entry (List.mem_append_left _ hentry) with
    hstill | ⟨entry, hentry, hreturns⟩
  · have htarget : action.target ≠ some timer :=
      hall (action, outcome) (List.mem_append_right _ (List.mem_singleton_self _))
    rcases hbefore.step_waits hstill hcb hguard htarget hstep with hlater | hreturns
    · exact Or.inl hlater
    · exact Or.inr ⟨_, List.mem_append_right _ (List.mem_singleton_self _), hreturns⟩
  · exact Or.inr ⟨entry, List.mem_append_left _ hentry, hreturns⟩

end TimerManager

end Cczoe.Timers

namespace Cczoe.Hook

open Cczoe.Timers

/-- A callback of a timer: the lambda of the sleep hooks, which calls `iom->schedule(fiber)` once
and does nothing else, or another one. -/
inductive TimerCallback
  | schedule (fiber : ℕ)
  | other (cb : ℕ)
  deriving DecidableEq, Repr

/-- A one-shot timer that is due at a deadline schedules the fiber then. -/
def Wakes {κ : Type} (s : TimerManager TimerCallback κ) (deadline : ℤ) (fiber : ℕ) : Prop :=
  ∃ timer ∈ s.timers, (s.memory timer).recurring = false ∧
    ((s.memory timer).next.toNat : ℤ) = deadline ∧
    (s.memory timer).cb = some (.given (.schedule fiber))

/-- The timers when a fiber that sleeps yields. The timer is allocated at `address`, and its
constructor reads `now` from the clock. -/
def timersAtYield {κ : Type} (ms : UInt64) (timerFirst : Bool) (address : Address) (fiber : ℕ)
    (now : UInt64) (s : TimerManager TimerCallback κ) : TimerManager TimerCallback κ :=
  if timerFirst then (s.addTimer address ms (some (.given (.schedule fiber))) false now).2 else s

namespace World

variable {κ τ : Type} (os : Os κ)

/-- The duration that a sleeping call asks for, in whole milliseconds. -/
def requested (w : World κ) : Call → Option ℤ
  | .sleep seconds => some (seconds.toNat * 1000 : ℕ)
  | .usleep usec => some (usec.toNat / 1000 : ℕ)
  | .nanosleep req _ => (os.readTime w.kernel req).map fun time ↦
      time.1.toInt * 1000 + time.2.toInt.tdiv 1000000
  | _ => none

/-- An integer that a signed 64-bit computation can have as its result. -/
def Signed64 (value : ℤ) : Prop := -2 ^ 63 ≤ value ∧ value < 2 ^ 63

/-- The signed computation of a duration does not overflow, which would be undefined behaviour. -/
def NoSignedOverflow (w : World κ) : Call → Prop
  | .nanosleep req _ => ∀ sec nsec, os.readTime w.kernel req = some (sec, nsec) →
      Signed64 (sec.toInt * 1000) ∧ Signed64 (sec.toInt * 1000 + nsec.toInt.tdiv 1000000)
  | _ => True

/-- The fiber sleeps, and when it yields a timer wakes it after the duration that was asked for. -/
def SleepsUntilDue (thread : Thread) (call : Call) (address : Address) (fiber : ℕ) (now : UInt64)
    (w : World κ) (s : TimerManager TimerCallback τ) : Prop :=
  w.NoSignedOverflow os call ∧ ∃ ms timerFirst next duration,
    w.hook os thread call = .ok (.sleeps ms timerFirst, next) ∧
      w.requested os call = some duration ∧
      Wakes (timersAtYield ms timerFirst address fiber now s) (now.toNat + duration) fiber

/-! ### What the hooks ask for -/

/-- `sleep` yields before it adds its timer. -/
def yieldsFirst : Call → Bool
  | .sleep _ => true
  | _ => false

theorem toNat_toUInt64 (value : Int64) : (value.toUInt64.toNat : ℤ) = value.toInt % 2 ^ 64 := by
  have hlt : (value.toUInt64.toNat : ℤ) < 2 ^ 64 := by exact_mod_cast value.toUInt64.toNat_lt
  have hint : value.toInt = (value.toUInt64.toNat : ℤ).bmod (2 ^ 64) :=
    BitVec.toInt_eq_toNat_bmod _
  have hmod := Int.bmod_emod (x := (value.toUInt64.toNat : ℤ)) (m := 2 ^ 64)
  rw [hint]
  exact ((Int.emod_eq_of_lt (Int.natCast_nonneg _) hlt).symm.trans hmod.symm)

/-- Assumes: the computation of `nanosleep` does not overflow. It gives the duration. -/
theorem toInt_milliseconds {sec nsec : Int64} (hsec : Signed64 (sec.toInt * 1000))
    (hsum : Signed64 (sec.toInt * 1000 + nsec.toInt.tdiv 1000000)) :
    (sec * 1000 + nsec / 1000000).toInt = sec.toInt * 1000 + nsec.toInt.tdiv 1000000 := by
  have hmul : (sec * 1000).toInt = sec.toInt * 1000 := by
    have hthousand : (1000 : Int64).toInt = 1000 := by decide
    rw [Int64.toInt_mul, hthousand]
    exact Int.bmod_eq_of_le (by have := hsec.1; omega) (by have := hsec.2; omega)
  have hdiv : (nsec / 1000000).toInt = nsec.toInt.tdiv 1000000 :=
    Int64.toInt_div_of_ne_right _ _ (by decide)
  rw [Int64.toInt_add, hmul, hdiv]
  exact Int.bmod_eq_of_le (by have := hsum.1; omega) (by have := hsum.2; omega)

variable {os} {w : World κ} {thread : Thread} {call : Call} {duration : ℤ}

/-- Assumes: hooking is on, and the duration is computed without signed overflow. The call suspends
the fiber: `sleep` with no timer yet, the other two with a timer of that duration, as a 64-bit
number. -/
theorem hook_sleeps (henabled : thread.hookEnable = true)
    (hrequested : w.requested os call = some duration) (hfits : w.NoSignedOverflow os call) :
    ∃ ms, w.hook os thread call = .ok (.sleeps ms (!yieldsFirst call), w) ∧
      (yieldsFirst call = false → (ms.toNat : ℤ) = duration % 2 ^ 64) := by
  have hnot : ¬ thread.hookEnable = false := by
    rw [henabled]
    exact nofun
  cases call with
  | sleep seconds =>
    refine ⟨(seconds * 1000).toUInt64, ?_, nofun⟩
    rw [hook, World.sleep, if_neg hnot]
    rfl
  | usleep usec =>
    refine ⟨(usec / 1000).toUInt64, ?_, fun _ ↦ ?_⟩
    · rw [hook, World.usleep, if_neg hnot]
      rfl
    · cases hrequested
      have hlt := usec.toNat_lt
      have hms : (usec / 1000).toUInt64.toNat = usec.toNat / 1000 := rfl
      rw [hms]
      omega
  | nanosleep req rem =>
    cases htime : os.readTime w.kernel req with
    | none =>
      rw [requested, htime] at hrequested
      cases hrequested
    | some time =>
      obtain ⟨sec, nsec⟩ := time
      rw [requested, htime] at hrequested
      cases hrequested
      refine ⟨(sec * 1000 + nsec / 1000000).toUInt64, ?_, fun _ ↦ ?_⟩
      · rw [hook, World.nanosleep, if_neg hnot, htime]
        rfl
      · obtain ⟨hsec, hsum⟩ := hfits sec nsec htime
        rw [toNat_toUInt64, toInt_milliseconds hsec hsum]
  | _ => cases hrequested

end World

section Timers

variable {τ : Type} {s : TimerManager TimerCallback τ} {address : Address} {fiber : ℕ}
  {now ms : UInt64}

/-- Assumes: new memory. A timer that was just added wakes the fiber when it is due, and all timers
that were there before still do what they did. -/
theorem wakes_addTimer_iff (hs : s.Consistent) (hfree : address ∉ s.live) (deadline : ℤ) :
    Wakes (s.addTimer address ms (some (.given (.schedule fiber))) false now).2 deadline fiber ↔
      Wakes s deadline fiber ∨ ((now + ms).toNat : ℤ) = deadline := by
  have hnot : address ∉ s.timers := fun hmem ↦ hfree (hs.tracked address hmem)
  have hself := TimerManager.addTimer_memory_self s address ms
    (some (.given (.schedule fiber))) false now
  have hframe : TimerManager.Frame s address
      (s.addTimer address ms (some (.given (.schedule fiber))) false now).2 :=
    TimerManager.addTimer_frame ..
  constructor
  · rintro ⟨timer, hmem, hrecurring, hnext, hcb⟩
    by_cases hne : timer = address
    · rw [hne, hself] at hnext
      exact Or.inr hnext
    · rw [hframe.memory timer hne] at hrecurring hnext hcb
      exact Or.inl ⟨timer, hframe.timers timer hmem hne, hrecurring, hnext, hcb⟩
  · rintro (⟨timer, hmem, hrecurring, hnext, hcb⟩ | hdue)
    · have hne : timer ≠ address := fun heq ↦ hnot (heq ▸ hmem)
      refine ⟨timer, (insert_updated hs.ordered hnot _).2.mem_iff.mpr (List.mem_cons_of_mem _ hmem),
        ?_, ?_, ?_⟩
      · rw [hframe.memory timer hne, hrecurring]
      · rw [hframe.memory timer hne, hnext]
      · rw [hframe.memory timer hne, hcb]
    · refine ⟨address, (hs.addTimer_begins hfree ms _ false now).1, ?_⟩
      rw [hself]
      exact ⟨rfl, hdue, rfl⟩

/-- Assumes: a number of milliseconds, as a 64-bit number. The deadline that is computed from it is
the right one if and only if that one is a 64-bit number. -/
theorem toNat_deadline_iff {duration : ℤ} (hms : (ms.toNat : ℤ) = duration % 2 ^ 64) :
    ((now + ms).toNat : ℤ) = now.toNat + duration ↔
      0 ≤ now.toNat + duration ∧ now.toNat + duration < 2 ^ 64 := by
  have hsum : ((now + ms).toNat : ℤ) = (now.toNat + duration) % 2 ^ 64 := by
    rw [UInt64.toNat_add]
    omega
  rw [hsum]
  omega

open Foundations in
/-- Assumes: the timer of a fiber that sleeps, which was added before the fiber yields; the deadline
need not be right. In every run from there whose calls are not about the timer, it is still in the
set, or `getExpiredCb` has returned the callback that schedules the fiber. -/
theorem resumed_in_every_run (hs : s.Consistent) (hfree : address ∉ s.live)
    {trace : List (Action TimerCallback τ × Timers.Outcome TimerCallback τ)}
    {final : TimerManager TimerCallback τ}
    (hrun : Run TimerManager.step TimerManager.Guard (timersAtYield ms true address fiber now s)
      trace final) (hspared : ∀ entry ∈ trace, entry.1.target ≠ some address) :
    final.Waits address ⟨false, ms, now + ms, some (.given (.schedule fiber))⟩ ∨
      ∃ entry ∈ trace, ∃ cbs, entry.2 = .callbacks cbs ∧
        some (.given (.schedule fiber)) ∈ cbs := by
  have hadded : (timersAtYield ms true address fiber now s).Consistent := hs.addTimer hfree ..
  have hwaits : (timersAtYield ms true address fiber now s).Waits address
      ⟨false, ms, now + ms, some (.given (.schedule fiber))⟩ :=
    ⟨(hs.addTimer_begins hfree ms _ false now).1, TimerManager.addTimer_memory_self ..⟩
  exact hadded.waits_in_every_run hwaits rfl hrun hspared

end Timers

namespace World

/-- Assumes: a call that suspends the fiber, without signed overflow. It sleeps until it is due if
and only if a timer wakes it when it yields. -/
theorem sleepsUntilDue_iff_wakes {κ τ : Type} {os : Os κ} {thread : Thread} {w next : World κ}
    {call : Call} {duration : ℤ} {ms : UInt64} {timerFirst : Bool}
    {s : TimerManager TimerCallback τ} {address : Address} {fiber : ℕ} {now : UInt64}
    (hhook : w.hook os thread call = .ok (.sleeps ms timerFirst, next))
    (hrequested : w.requested os call = some duration) (hfits : w.NoSignedOverflow os call) :
    w.SleepsUntilDue os thread call address fiber now s ↔
      Wakes (timersAtYield ms timerFirst address fiber now s) (now.toNat + duration) fiber := by
  constructor
  · rintro ⟨-, _, _, _, _, hhook', hrequested', hwakes⟩
    cases hhook.symm.trans hhook'
    cases hrequested.symm.trans hrequested'
    exact hwakes
  · exact fun hwakes ↦ ⟨hfits, _, _, _, _, hhook, hrequested, hwakes⟩

end World

open Foundations in
/-- Assumes: hooking is on, in whatever state the operations on the timers have led to; the call is
`sleep`, `usleep` or `nanosleep` with a duration that can be read, and the timer gets new memory.
The fiber sleeps until it is due if and only if the duration is computed without signed overflow
and, where the call is not `sleep`, the deadline is a 64-bit number. Failing that, only a timer that
the set already holds can wake the fiber. -/
theorem sleepsUntilDue_iff {κ τ : Type} {os : Os κ} {thread : Thread} {w : World κ} {call : Call}
    {duration : ℤ} {s : TimerManager TimerCallback τ}
    {trace : List (Action TimerCallback τ × Timers.Outcome TimerCallback τ)} {address : Address}
    (hrun : Run TimerManager.step TimerManager.Guard TimerManager.init trace s)
    (hfree : address ∉ s.live) (henabled : thread.hookEnable = true)
    (hrequested : w.requested os call = some duration) (fiber : ℕ) (now : UInt64) :
    w.SleepsUntilDue os thread call address fiber now s ↔
      w.NoSignedOverflow os call ∧
        (Wakes s (now.toNat + duration) fiber ∨ (World.yieldsFirst call = false ∧
          0 ≤ now.toNat + duration ∧ now.toNat + duration < 2 ^ 64)) := by
  have hs := TimerManager.consistent_of_run hrun
  by_cases hfits : w.NoSignedOverflow os call
  · obtain ⟨ms, hhook, hms⟩ := World.hook_sleeps henabled hrequested hfits
    rw [World.sleepsUntilDue_iff_wakes hhook hrequested hfits]
    cases hyields : World.yieldsFirst call with
    | true => simp [timersAtYield, hfits]
    | false =>
      have hwakes : Wakes (timersAtYield ms (!false) address fiber now s) (now.toNat + duration)
          fiber ↔ Wakes s (now.toNat + duration) fiber ∨
            ((now + ms).toNat : ℤ) = now.toNat + duration := wakes_addTimer_iff hs hfree _
      rw [hwakes, toNat_deadline_iff (hms hyields)]
      simp [hfits]
  · exact ⟨fun hsleeps ↦ absurd hsleeps.1 hfits, fun hcond ↦ absurd hcond.1 hfits⟩

/-- `usleep(2500000)` at 5000 sleeps until 7500. -/
theorem sleepsUntilDue_usleep : (World.init ()).SleepsUntilDue World.quietOs ⟨true, true⟩
    (.usleep 2500000) 1 7 5000 (TimerManager.init : TimerManager TimerCallback Unit) :=
  (sleepsUntilDue_iff Foundations.Run.nil List.not_mem_nil rfl rfl 7 5000).mpr
    ⟨trivial, Or.inr ⟨rfl, by decide, by decide⟩⟩

/-- `sleep(1)` as the first call yields while `m_timers` is empty. -/
theorem not_sleepsUntilDue_sleep :
    (World.init ()).hook World.quietOs ⟨true, true⟩ (.sleep 1) =
        .ok (.sleeps 1000 false, World.init ()) ∧
      (timersAtYield 1000 false 1 7 5000
        (TimerManager.init : TimerManager TimerCallback Unit)).timers = [] ∧
      ¬ (World.init ()).SleepsUntilDue World.quietOs ⟨true, true⟩ (.sleep 1) 1 7 5000
        (TimerManager.init : TimerManager TimerCallback Unit) := by
  refine ⟨rfl, rfl, ?_⟩
  rintro ⟨-, ms, timerFirst, next, duration, hhook, -, timer, hmem, -⟩
  cases hhook
  exact absurd hmem List.not_mem_nil

end Cczoe.Hook
