import Cczoe.Timer.TimerOrder

/-!
# How long `IOManager::idle` sleeps, and how it is woken

An idle thread of `iomanager.cpp` asks the timer set for the next deadline and sleeps in
`epoll_wait`, and a timer that becomes the first one is meant to wake it through the tickle pipe.
`getNextTimer_le` says that the set answers with a time no later than any deadline. The two branches
of `idle` that use the answer are exchanged, so it sleeps 3000 ms whatever the answer is:
`idleTimeout_le_deadlines_iff` says when that is not too long. `tickle` writes to the read end of
the pipe, so no byte ever arrives: `tickle_never_wakes`.
-/

set_option autoImplicit false
set_option relaxedAutoImplicit false

namespace Cczoe.Scheduler

open Cczoe.Foundations Cczoe.Timers

variable {γ κ : Type}

section Timeout

/-- The conversion of the timeout to the `int` that `epoll_wait` takes. -/
def toInt (timeout : UInt64) : ℤ := timeout.toUInt32.toInt32.toInt

/-- The timeout with which `IOManager::idle` calls `epoll_wait`. -/
def idleTimeout (s : TimerManager γ κ) (now : UInt64) : ℤ :=
  let maxTimeout : UInt64 := 3000
  let nextTimeout := s.getNextTimer now
  if nextTimeout = 0xffffffffffffffff then toInt (min maxTimeout nextTimeout)
  else toInt maxTimeout

/-- How long a timer is from its deadline. -/
def wait (s : TimerManager γ κ) (now : UInt64) (timer : Address) : ℤ :=
  max 0 (((s.memory timer).next.toNat : ℤ) - now.toNat)

variable (s : TimerManager γ κ) (now : UInt64)

/-- Assumes: the set is in order. No timer is due before the time that `getNextTimer` returns. -/
theorem getNextTimer_le (hordered : Increasing (deadline s.memory) s.timers) {timer : Address}
    (hmem : timer ∈ s.timers) : ((s.getNextTimer now).toNat : ℤ) ≤ wait s now timer := by
  rw [TimerManager.getNextTimer, wait]
  cases htimers : s.timers with
  | nil =>
    rw [htimers] at hmem
    exact absurd hmem List.not_mem_nil
  | cons first rest =>
    have hfirst : (s.memory first).next.toNat ≤ (s.memory timer).next.toNat := by
      rw [htimers] at hmem hordered
      rcases List.mem_cons.mp hmem with hsame | hlater
      · rw [hsame]
      · have hlt := (List.pairwise_cons.mp hordered).1 timer hlater
        rw [deadline, deadline, Prod.Lex.toLex_lt_toLex] at hlt
        rcases hlt with hless | ⟨hsame, -⟩
        · exact Nat.le_of_lt hless
        · exact Nat.le_of_eq hsame
    by_cases hdue : now ≥ (s.memory first).next
    · simp only [if_pos hdue]
      exact le_max_left _ _
    · have hle : now ≤ (s.memory first).next := UInt64.le_of_lt (UInt64.not_le.mp hdue)
      simp only [if_neg hdue, UInt64.toNat_sub_of_le _ _ hle]
      have hnat : now.toNat ≤ (s.memory first).next.toNat := UInt64.le_iff_toNat_le.mp hle
      refine le_trans ?_ (le_max_right _ _)
      omega

/-- Both branches come to the same timeout. -/
theorem idleTimeout_eq : idleTimeout s now = 3000 := by
  rw [idleTimeout]
  by_cases hnone : s.getNextTimer now = 0xffffffffffffffff
  · rw [if_pos hnone, hnone]
    rfl
  · rw [if_neg hnone]
    rfl

/-- The timeout of `idle` is at most 3000 ms and reaches past no deadline exactly when no timer is
due within 3000 ms. -/
theorem idleTimeout_le_deadlines_iff :
    (idleTimeout s now ≤ 3000 ∧ ∀ timer ∈ s.timers, idleTimeout s now ≤ wait s now timer) ↔
      ∀ timer ∈ s.timers, now.toNat + 3000 ≤ (s.memory timer).next.toNat := by
  rw [idleTimeout_eq]
  constructor
  · rintro ⟨-, hall⟩ timer hmem
    have hwait := hall timer hmem
    rw [wait] at hwait
    omega
  · intro hall
    refine ⟨le_refl _, ?_⟩
    intro timer hmem
    have hlate := hall timer hmem
    rw [wait]
    omega

/-- With one timer that is due in 10 ms, `idle` sleeps for 3000 ms. -/
theorem idleTimeout_past_deadline :
    ¬ ∀ (s : TimerManager Unit Unit) (now : UInt64), idleTimeout s now ≤ 3000 ∧
      ∀ timer ∈ s.timers, idleTimeout s now ≤ wait s now timer := by
  intro hall
  have hwait := (hall (TimerManager.init.addTimer 1 10 (some (.given ())) false 100).2 100).2 1
    (show (1 : Address) ∈ [1] by decide)
  exact absurd hwait (by decide)

end Timeout

section Tickle

/-- The two ends of a pipe. -/
inductive PipeEnd
  | read
  | write
  deriving DecidableEq, Repr

/-- `m_tickleFds`, as `pipe` fills it. -/
def tickleFds : Fin 2 → PipeEnd
  | 0 => .read
  | 1 => .write

/-- `write` on one end of a pipe with bytes pending: what it returns and what is pending then. -/
def writePipe (fd : PipeEnd) (bytes pending : List UInt8) : ℤ × List UInt8 :=
  match fd with
  | .read => (-1, pending)
  | .write => (bytes.length, pending ++ bytes)

/-- The part of an `IOManager` that wakes idle threads: the timers, `m_idleThreadCount`, the bytes
pending in the tickle pipe and the number of bytes that idle threads have read from it. -/
structure Wakeups (γ κ : Type) where
  manager : TimerManager γ κ
  idleThreadCount : ℕ
  pending : List UInt8
  drained : ℕ

/-- How an operation stops the program. -/
inductive WakeupFault
  | timer (fault : Timers.Fault)
  | assertion (text : String)
  deriving DecidableEq, Repr

/-- What the threads do. -/
inductive WakeupAction (γ κ : Type)
  /-- An operation on a timer or on the timer set. -/
  | timer (action : Timers.Action γ κ)
  /-- `Scheduler::run` counts a thread as idle. -/
  | enterIdle
  /-- The thread comes back from the idle fiber. -/
  | leaveIdle
  /-- `tickle`, as the destructor of `IOManager` calls it. -/
  | tickle
  /-- An idle thread reads the tickle pipe until it is empty. -/
  | drain
  deriving DecidableEq, Repr

/-- The timer that a call of `addTimer` inserts, with its deadline. -/
def insertion : Timers.Action γ κ → Option (Address × UInt64)
  | .addTimer address ms _ _ now => some (address, now + ms)
  | .addConditionTimer address ms _ _ _ now => some (address, now + ms)
  | _ => none

/-- Whether an operation called `onTimerInsertedAtFront`. -/
def insertedAtFront : Timers.Outcome γ κ → Bool
  | .timer _ atFront => atFront
  | .result _ atFront => atFront
  | _ => false

namespace Wakeups

/-- No timer, no idle thread, an empty pipe. -/
def init : Wakeups γ κ := ⟨TimerManager.init, 0, [], 0⟩

/-- `IOManager::tickle`. -/
def tickle (s : Wakeups γ κ) : Except WakeupFault (Wakeups γ κ) :=
  if s.idleThreadCount > 0 then
    let written := writePipe (tickleFds 0) [84] s.pending
    if written.1 ≠ 0 then .ok { s with pending := written.2 } else .error (.assertion "rt")
  else .ok s

/-- One step of a thread. An operation on the timers that inserts one at the front calls
`onTimerInsertedAtFront`, which is `tickle`. -/
def step (action : WakeupAction γ κ) (s : Wakeups γ κ) :
    Except WakeupFault (Option (Timers.Outcome γ κ) × Wakeups γ κ) :=
  match action with
  | .timer action =>
    match TimerManager.step action s.manager with
    | .error fault => .error (.timer fault)
    | .ok (outcome, manager) =>
      if insertedAtFront outcome then
        { s with manager := manager }.tickle.map fun next ↦ (some outcome, next)
      else .ok (some outcome, { s with manager := manager })
  | .enterIdle => .ok (none, { s with idleThreadCount := s.idleThreadCount + 1 })
  | .leaveIdle => .ok (none, { s with idleThreadCount := s.idleThreadCount - 1 })
  | .tickle => s.tickle.map fun next ↦ (none, next)
  | .drain => .ok (none, { s with pending := [], drained := s.drained + s.pending.length })

/-- The timers are used as they can be, and only an idle thread stops being idle. -/
def Guard (s : Wakeups γ κ) : WakeupAction γ κ → Prop
  | .timer action => s.manager.Guard action
  | .leaveIdle => 0 < s.idleThreadCount
  | _ => True

/-- `tickle` returns and leaves everything as it is: the write goes to the read end. -/
theorem tickle_eq (s : Wakeups γ κ) : s.tickle = .ok s := by
  by_cases hidle : s.idleThreadCount > 0
  · have hrefused : writePipe (tickleFds 0) [84] s.pending = (-1, s.pending) := rfl
    rw [tickle, if_pos hidle, hrefused, if_pos (show (-1 : ℤ) ≠ 0 by decide)]
  · rw [tickle, if_neg hidle]

/-- An operation on the timers changes the timers only. -/
theorem step_timer (s : Wakeups γ κ) {action : Timers.Action γ κ} {outcome : Timers.Outcome γ κ}
    {manager : TimerManager γ κ}
    (hstep : TimerManager.step action s.manager = .ok (outcome, manager)) :
    step (.timer action) s = .ok (some outcome, { s with manager := manager }) := by
  rw [step, hstep]
  by_cases hfront : insertedAtFront outcome = true
  · simp only [if_pos hfront, tickle_eq]
    rfl
  · simp only [if_neg hfront]

/-- No byte is pending in the pipe and none was read from it, in one step. -/
theorem step_silent {s next : Wakeups γ κ} {action : WakeupAction γ κ}
    {outcome : Option (Timers.Outcome γ κ)} (hstep : step action s = .ok (outcome, next))
    (hpending : s.pending = []) : next.pending = [] ∧ next.drained = s.drained := by
  cases action with
  | timer action =>
    cases hmanager : TimerManager.step action s.manager with
    | error fault =>
      rw [step, hmanager] at hstep
      cases hstep
    | ok result =>
      rw [step_timer s hmanager] at hstep
      cases hstep
      exact ⟨hpending, rfl⟩
  | enterIdle =>
    cases hstep
    exact ⟨hpending, rfl⟩
  | leaveIdle =>
    cases hstep
    exact ⟨hpending, rfl⟩
  | tickle =>
    rw [step, tickle_eq] at hstep
    cases hstep
    exact ⟨hpending, rfl⟩
  | drain =>
    cases hstep
    refine ⟨rfl, ?_⟩
    rw [hpending, List.length_nil, Nat.add_zero]

variable {trace : List (WakeupAction γ κ × Option (Timers.Outcome γ κ))} {start final : Wakeups γ κ}

/-- Assumes: the pipe is empty when a run starts. It is empty at its end, and nothing was read. -/
theorem run_silent (hrun : Run step Guard start trace final) (hpending : start.pending = []) :
    final.pending = [] ∧ final.drained = start.drained := by
  let silent : List (WakeupAction γ κ × Option (Timers.Outcome γ κ)) → Wakeups γ κ → Prop :=
    fun _ now ↦ now.pending = [] ∧ now.drained = start.drained
  have hstart : silent [] start := ⟨hpending, rfl⟩
  refine hrun.history_invariant hstart ?_
  rintro trace now action outcome next ⟨hempty, hdrained⟩ - hstep
  obtain ⟨hnext, hread⟩ := step_silent hstep hempty
  exact ⟨hnext, hread.trans hdrained⟩

/-- The timers that a run reaches are consistent. -/
theorem run_consistent (hrun : Run step Guard init trace final) : final.manager.Consistent := by
  let reached : List (WakeupAction γ κ × Option (Timers.Outcome γ κ)) → Wakeups γ κ → Prop :=
    fun _ now ↦ now.manager.Consistent
  have hstart : reached [] init := TimerManager.consistent_init
  refine hrun.history_invariant hstart ?_
  intro trace now action outcome next hnow hguard hstep
  cases action with
  | timer action =>
    obtain ⟨_, manager, hmanager, hnext⟩ := hnow.step hguard
    rw [step_timer now hmanager] at hstep
    cases hstep
    exact hnext
  | enterIdle | leaveIdle | drain =>
    cases hstep
    exact hnow
  | tickle =>
    rw [step, tickle_eq] at hstep
    cases hstep
    exact hnow

/-- A byte is pending in the pipe, or has been read from it since an earlier state. -/
def Woken (before after : Wakeups γ κ) : Prop :=
  after.pending ≠ [] ∨ before.drained < after.drained

/-- Assumes: an empty pipe. Nothing that the threads do afterwards wakes one. -/
theorem not_woken {before after : Wakeups γ κ} (hpending : after.pending = [])
    (hdrained : after.drained = before.drained) : ¬ Woken before after := by
  rintro (hbyte | hread)
  · exact hbyte hpending
  · exact absurd hdrained (Nat.ne_of_gt hread)

/-- An insertion before all other timers is reported by `addTimer`. -/
theorem step_insertion {s : TimerManager γ κ} (hs : s.Consistent) {action : Timers.Action γ κ}
    {address : Address} {due : UInt64} (hinsertion : insertion action = some (address, due))
    (hguard : s.Guard action)
    (hearliest : ∀ timer ∈ s.timers, due.toNat < (s.memory timer).next.toNat) :
    ∃ next, TimerManager.step action s = .ok (.timer address true, next) := by
  cases action with
  | addTimer address ms cb recurring now =>
    cases hinsertion
    have hfront := hs.addTimer_atFront hguard ms (cb.map .given) recurring now hearliest
    exact ⟨_, by rw [TimerManager.step, hfront]⟩
  | addConditionTimer address ms cb cond recurring now =>
    cases hinsertion
    have hfront := hs.addTimer_atFront hguard ms (some (.conditional cb cond)) recurring now
      hearliest
    exact ⟨_, by rw [TimerManager.step, hfront]⟩
  | cancel | reset | refresh | getExpiredCb | release => cases hinsertion

/-- Assumes: a reachable state with idle threads, and a call of `addTimer` whose timer is due before
all others. The call returns and has called `onTimerInsertedAtFront`; the threads are still idle, no
byte is pending in the pipe, and none is ever read from it, whatever the threads do afterwards. -/
theorem tickle_never_wakes {now : Wakeups γ κ} (hrun : Run step Guard init trace now)
    (hidle : 0 < now.idleThreadCount) {action : Timers.Action γ κ} {address : Address}
    {due : UInt64} (hinsertion : insertion action = some (address, due))
    (hguard : now.Guard (.timer action))
    (hearliest : ∀ timer ∈ now.manager.timers,
      due.toNat < (now.manager.memory timer).next.toNat) :
    ∃ after, step (.timer action) now = .ok (some (.timer address true), after) ∧
      0 < after.idleThreadCount ∧ ¬ Woken now after ∧
      ∀ later (rest : List (WakeupAction γ κ × Option (Timers.Outcome γ κ))),
        Run step Guard after rest later → ¬ Woken now later := by
  obtain ⟨manager, hmanager⟩ := step_insertion (run_consistent hrun) hinsertion hguard hearliest
  have hstep := step_timer now hmanager
  have hempty : now.pending = [] := (run_silent hrun rfl).1
  obtain ⟨hpending, hdrained⟩ := step_silent hstep hempty
  refine ⟨_, hstep, hidle, not_woken hpending hdrained, ?_⟩
  intro later rest hlater
  obtain ⟨hlast, hread⟩ := run_silent hlater hpending
  exact not_woken hlast (hread.trans hdrained)

/-- One thread is idle, and the first timer is added. -/
theorem tickle_never_wakes_first_timer :
    ∃ after : Wakeups Unit Unit,
      step (.timer (.addTimer 1 10 (some ()) false 100)) { init with idleThreadCount := 1 } =
        .ok (some (.timer 1 true), after) ∧ 0 < after.idleThreadCount ∧ after.pending = [] := by
  have hempty : Run step Guard (init : Wakeups Unit Unit) [] init := Run.nil
  have hidle := hempty.snoc (show Guard _ .enterIdle from trivial) rfl
  obtain ⟨after, hstep, hthreads, hwoken, -⟩ := tickle_never_wakes hidle Nat.one_pos
    (show insertion (.addTimer 1 10 (some ()) false 100) = some (1, 110) from rfl)
    (show (1 : Address) ∉ [] from List.not_mem_nil)
    (fun timer hmem ↦ absurd hmem List.not_mem_nil)
  exact ⟨after, hstep, hthreads, not_not.mp fun hpending ↦ hwoken (Or.inl hpending)⟩

/-- A thread is idle and the first timer is added, but the thread is not woken. -/
theorem tickle_fails_to_wake :
    ¬ ∀ (trace : List (WakeupAction Unit Unit × Option (Timers.Outcome Unit Unit)))
      (now after : Wakeups Unit Unit) (action : Timers.Action Unit Unit) (address : Address)
      (due : UInt64), Run step Guard init trace now → 0 < now.idleThreadCount →
      insertion action = some (address, due) → now.Guard (.timer action) →
      (∀ timer ∈ now.manager.timers, due.toNat < (now.manager.memory timer).next.toNat) →
      step (.timer action) now = .ok (some (.timer address true), after) → Woken now after := by
  intro hall
  have hempty : Run step Guard (init : Wakeups Unit Unit) [] init := Run.nil
  have hidle := hempty.snoc (show Guard _ .enterIdle from trivial) rfl
  have hwoken := hall _ _ _ (.addTimer 1 10 (some ()) false 100) 1 110 hidle Nat.one_pos rfl
    List.not_mem_nil (fun timer hmem ↦ absurd hmem List.not_mem_nil) rfl
  exact not_woken rfl rfl hwoken

end Wakeups

end Tickle

end Cczoe.Scheduler
