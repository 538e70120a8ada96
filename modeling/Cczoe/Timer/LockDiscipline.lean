import Cczoe.Foundations.LockPrograms
import Cczoe.Timer.TimerManager

/-!
# The lock of the timer manager

The operations of `Timer` and `TimerManager` as programs under the reader-writer lock `m_mutex`:
every request, release, modification of `m_timers` and call of `onTimerInsertedAtFront` is an event.
Run alone, the programs compute the operations of `TimerManager` (`computes_cancel`,
`computes_reset` and their siblings).

`operation_disciplined_iff` is the discipline: on every path of every operation the thread requests
the lock only without it, releases it only while it holds it, modifies `m_timers` only under the
write lock, and calls `onTimerInsertedAtFront` and returns without the lock. The one exception is
`Timer::reset` of a timer that is found in `m_timers`: it calls the private `addTimer`, which
requests the lock, while its own scoped lock holds it.
-/

set_option autoImplicit false
set_option relaxedAutoImplicit false

namespace Cczoe.Timers

open Cczoe.Foundations Cczoe.Foundations.LockPrograms

namespace Locked

open LockM

variable {γ κ : Type}

/-! ### The programs -/

/-- The private `addTimer(timer, mutex)`. The iterator of the new element is `begin()` when the
timer comes first; `m_timers.begin()` is read after the release. -/
def addTimerPtr (timer : Address) : LockM (TimerManager γ κ) Unit := do
  request .write
  let inserted ← modify fun s ↦
    ((OrderedSet.insert (less s.memory) timer s.timers).2.2, s.insert timer)
  unlock
  if inserted then
    let atFront ← look fun s ↦ s.timers.head? == some timer
    if atFront then callback else pure ()
  else pure ()

/-- `addTimer(ms, cb, recurring)`. -/
def addTimer (address : Address) (ms : UInt64) (cb : Option (Callback γ κ)) (recurring : Bool)
    (now : UInt64) : LockM (TimerManager γ κ) Address := do
  assign fun s ↦ { s.store address ⟨recurring, ms, now + ms, cb⟩ with live := address :: s.live }
  addTimerPtr address
  return address

/-- `addTimer(ms, cb, cond, recurring)`. -/
def addConditionTimer (address : Address) (ms : UInt64) (cb : Option γ) (cond : κ)
    (recurring : Bool) (now : UInt64) : LockM (TimerManager γ κ) Address :=
  addTimer address ms (some (.conditional cb cond)) recurring now

/-- `getNextTimer`. -/
def getNextTimer (now : UInt64) : LockM (TimerManager γ κ) UInt64 :=
  underLock .read do
    let first ← look fun s ↦ s.timers.head?.map fun next ↦ (s.memory next).next
    return match first with
      | none => 0xffffffffffffffff
      | some next => if now ≥ next then 0 else next - now

/-- The body of the loop of `getExpiredCb`. -/
def expire (timer : Address) (now : UInt64) : LockM (TimerManager γ κ) Unit := do
  let recurring ← look fun s ↦ (s.memory timer).recurring
  if recurring then
    assign fun s ↦ s.store timer { s.memory timer with next := now + (s.memory timer).ms }
    modify fun s ↦ ((), s.insert timer)
  else
    assign fun s ↦ s.store timer { s.memory timer with cb := none }

/-- The loop of `getExpiredCb` over `expired`. -/
def expireAll (now : UInt64) :
    List Address → LockM (TimerManager γ κ) (List (Option (Callback γ κ)))
  | [] => pure []
  | timer :: rest => do
    let cb ← look fun s ↦ (s.memory timer).cb
    expire timer now
    let cbs ← expireAll now rest
    return cb :: cbs

/-- `getExpiredCb`. The lock is released between the test and the removal. -/
def getExpiredCb (probe : Address) (now : UInt64) :
    LockM (TimerManager γ κ) (List (Option (Callback γ κ))) := do
  let vacant ← underLock .read (look fun s ↦ s.timers.isEmpty)
  if vacant then pure []
  else
    underLock .write do
      let it ← look fun s ↦ s.expiredEnd probe now
      let expired ← look fun s ↦ s.timers.take it
      modify fun s ↦ ((), { s with timers := s.timers.drop it })
      expireAll now expired

/-- `empty`. -/
def empty : LockM (TimerManager γ κ) Bool :=
  underLock .read (look fun s ↦ s.timers.isEmpty)

/-- `Timer::cancel`. -/
def cancel (timer : Address) : LockM (TimerManager γ κ) Bool :=
  underLock .write do
    let active ← look fun s ↦ (s.memory timer).cb.isSome
    if active then
      assign fun s ↦ s.store timer { s.memory timer with cb := none }
      let it ← look fun s ↦ s.find timer
      modify fun s ↦ (true, s.erase it)
    else pure false

/-- `Timer::reset`. Its scoped lock holds `m_mutex` when it calls the private `addTimer`. -/
def reset (timer : Address) (ms : UInt64) (fromNow : Bool) (now : UInt64) :
    LockM (TimerManager γ κ) Bool :=
  underLock .write do
    let active ← look fun s ↦ (s.memory timer).cb.isSome
    if active then
      let it ← look fun s ↦ s.find timer
      let found ← look fun s ↦ it != s.timers.length
      if found then
        modify fun s ↦ ((), s.erase it)
        assign fun s ↦ s.store timer { s.memory timer with
          ms := ms
          next := if fromNow then now + ms else (s.memory timer).next }
        addTimerPtr timer
        return true
      else pure false
    else pure false

/-- `Timer::refresh`. -/
def refresh (timer : Address) (now : UInt64) : LockM (TimerManager γ κ) Bool :=
  underLock .write do
    let active ← look fun s ↦ (s.memory timer).cb.isSome
    if active then
      assign fun s ↦ s.store timer { s.memory timer with cb := none }
      let it ← look fun s ↦ s.find timer
      let found ← look fun s ↦ it != s.timers.length
      if found then
        modify fun s ↦ ((), s.erase it)
        assign fun s ↦ s.store timer { s.memory timer with next := now + (s.memory timer).ms }
        modify fun s ↦ (true, s.insert timer)
      else pure false
    else pure false

/-! ### What the programs keep -/

/-- The private `addTimer` behind its request. -/
theorem keeps_addTimerPtr_rest (timer : Address) :
    Keeps (σ := TimerManager γ κ) (some .write) (do
      let inserted ← LockM.modify fun s ↦
        ((OrderedSet.insert (less s.memory) timer s.timers).2.2, s.insert timer)
      unlock
      if inserted then
        let atFront ← look fun s ↦ s.timers.head? == some timer
        if atFront then callback else pure ()
      else pure ()) none := by
  refine (Keeps.modify _).bind fun _ ↦ (Keeps.unlock .write).bind fun _ ↦
    Keeps.ite ?_ (Keeps.pure none ())
  exact (Keeps.look none _).bind fun _ ↦ Keeps.ite Keeps.callback (Keeps.pure none ())

theorem keeps_addTimerPtr (timer : Address) :
    Keeps none (addTimerPtr timer : LockM (TimerManager γ κ) Unit) none :=
  (Keeps.request .write).bind fun _ ↦ keeps_addTimerPtr_rest timer

/-- The private `addTimer` starts with a request, whether or not the thread holds the lock. -/
theorem addTimerPtr_trace (timer : Address) (others : ℕ → TimerManager γ κ → TimerManager γ κ)
    (thread : Thread (TimerManager γ κ)) :
    ∃ added, (addTimerPtr timer others thread).2.trace =
      thread.trace ++ .request .write :: added := by
  obtain ⟨added, htrace, -⟩ :=
    keeps_addTimerPtr_rest timer others (request .write others thread).2 rfl
  refine ⟨added, htrace.trans ?_⟩
  simp only [request, Thread.letIn_trace, List.append_assoc, List.singleton_append]

theorem keeps_addTimer (address : Address) (ms : UInt64) (cb : Option (Callback γ κ))
    (recurring : Bool) (now : UInt64) : Keeps none (addTimer address ms cb recurring now) none :=
  (Keeps.assign none _).bind fun _ ↦ (keeps_addTimerPtr address).bind fun _ ↦
    Keeps.pure none address

theorem keeps_getNextTimer (now : UInt64) :
    Keeps none (getNextTimer now : LockM (TimerManager γ κ) UInt64) none :=
  Keeps.underLock ((Keeps.look _ _).bind fun _ ↦ Keeps.pure _ _)

theorem keeps_expire (timer : Address) (now : UInt64) :
    Keeps (some .write) (expire timer now : LockM (TimerManager γ κ) Unit) (some .write) :=
  (Keeps.look _ _).bind fun _ ↦
    Keeps.ite ((Keeps.assign _ _).bind fun _ ↦ Keeps.modify _) (Keeps.assign _ _)

/-- The loop of `getExpiredCb` stays under the write lock. -/
theorem keeps_expireAll (now : UInt64) (expired : List Address) :
    Keeps (some .write) (expireAll (γ := γ) (κ := κ) now expired) (some .write) := by
  induction expired with
  | nil => exact Keeps.pure _ _
  | cons timer rest ih =>
    exact (Keeps.look _ _).bind fun _ ↦ (keeps_expire timer now).bind fun _ ↦
      ih.bind fun _ ↦ Keeps.pure _ _

theorem keeps_getExpiredCb (probe : Address) (now : UInt64) :
    Keeps none (getExpiredCb (γ := γ) (κ := κ) probe now) none := by
  refine (Keeps.underLock (Keeps.look _ _)).bind fun _ ↦ Keeps.ite (Keeps.pure _ _)
    (Keeps.underLock ?_)
  exact (Keeps.look _ _).bind fun _ ↦ (Keeps.look _ _).bind fun expired ↦
    (Keeps.modify _).bind fun _ ↦ keeps_expireAll now expired

theorem keeps_cancel (timer : Address) :
    Keeps none (cancel timer : LockM (TimerManager γ κ) Bool) none := by
  refine Keeps.underLock ((Keeps.look _ _).bind fun _ ↦ Keeps.ite ?_ (Keeps.pure _ _))
  exact (Keeps.assign _ _).bind fun _ ↦ (Keeps.look _ _).bind fun _ ↦ Keeps.modify _

theorem keeps_refresh (timer : Address) (now : UInt64) :
    Keeps none (refresh timer now : LockM (TimerManager γ κ) Bool) none := by
  refine Keeps.underLock ((Keeps.look _ _).bind fun _ ↦ Keeps.ite ?_ (Keeps.pure _ _))
  refine (Keeps.assign _ _).bind fun _ ↦ (Keeps.look _ _).bind fun _ ↦
    (Keeps.look _ _).bind fun _ ↦ Keeps.ite ?_ (Keeps.pure _ _)
  exact (Keeps.modify _).bind fun _ ↦ (Keeps.assign _ _).bind fun _ ↦ Keeps.modify _

/-! ### `reset` -/

/-- The timer has a callback and is found in `m_timers`: `reset` then takes it out and calls the
private `addTimer`. -/
def Listed (s : TimerManager γ κ) (timer : Address) : Prop :=
  (s.memory timer).cb.isSome = true ∧ s.find timer ≠ s.timers.length

/-- Assumes: the timer is not listed when `reset` gets the lock. It gives the lock back at once. -/
theorem traceOf_reset_of_not_listed {others : ℕ → TimerManager γ κ → TimerManager γ κ}
    {s : TimerManager γ κ} {timer : Address} {ms now : UInt64} {fromNow : Bool}
    (hnot : ¬ Listed (others 0 s) timer) :
    (reset timer ms fromNow now).traceOf others s = [.request .write, .unlock] := by
  by_cases hactive : ((others 0 s).memory timer).cb.isSome = true
  · have hend : (others 0 s).find timer = (others 0 s).timers.length := by
      by_contra hfound
      exact hnot ⟨hactive, hfound⟩
    simp [traceOf, reset, underLock, request, look, unlock, Thread.letIn, bind, Pure.pure,
      hactive, hend]
  · simp [traceOf, reset, underLock, request, look, unlock, Thread.letIn, bind, Pure.pure,
      hactive]

/-- Assumes: the timer is listed when `reset` gets the lock. It requests the lock a second time
after it has taken the timer out. -/
theorem traceOf_reset_of_listed {others : ℕ → TimerManager γ κ → TimerManager γ κ}
    {s : TimerManager γ κ} {timer : Address} (ms : UInt64) (fromNow : Bool) (now : UInt64)
    (hlisted : Listed (others 0 s) timer) :
    ∃ rest, (reset timer ms fromNow now).traceOf others s =
      .request .write :: .modify :: .request .write :: rest := by
  obtain ⟨hactive, hfound⟩ := hlisted
  -- the thread when it calls the private `addTimer`: the timer is out and has its new deadline
  let taken : TimerManager γ κ := (others 0 s).erase ((others 0 s).find timer)
  let thread : Thread (TimerManager γ κ) :=
    { memory := taken.store timer { taken.memory timer with
        ms := ms
        next := if fromNow then now + ms else (taken.memory timer).next }
      turn := 1
      held := some .write
      trace := [.request .write, .modify] }
  have hreset : (reset timer ms fromNow now).traceOf others s =
      (addTimerPtr timer others thread).2.trace ++ [.unlock] := by
    simp [traceOf, reset, underLock, request, look, unlock, LockM.modify, assign,
      Thread.letIn, bind, Pure.pure, hactive, hfound, thread, taken]
  obtain ⟨added, hadded⟩ := addTimerPtr_trace timer others thread
  refine ⟨added ++ [.unlock], ?_⟩
  rw [hreset, hadded]
  rfl

/-! ### What the programs compute -/

theorem computes_addTimerPtr (timer : Address) :
    Computes (addTimerPtr timer) fun s : TimerManager γ κ ↦ ((), (s.addTimerPtr timer).2) := by
  refine ((Computes.request .write).bind fun _ ↦ (Computes.modify _).bind fun _ ↦
    Computes.unlock.bind fun _ ↦ Computes.ite ((Computes.look _).bind fun _ ↦
      Computes.ite Computes.callback (Computes.pure ())) (Computes.pure ())).of_eq fun s ↦ ?_
  simp only [ite_self]
  rfl

theorem computes_addTimer (address : Address) (ms : UInt64) (cb : Option (Callback γ κ))
    (recurring : Bool) (now : UInt64) :
    Computes (addTimer address ms cb recurring now) fun s ↦
      (address, (s.addTimer address ms cb recurring now).2) :=
  (Computes.assign _).bind fun _ ↦ (computes_addTimerPtr address).bind fun _ ↦
    Computes.pure address

theorem computes_getNextTimer (now : UInt64) :
    Computes (getNextTimer now) fun s : TimerManager γ κ ↦ (s.getNextTimer now, s) := by
  refine (Computes.underLock ((Computes.look _).bind fun _ ↦ Computes.pure _)).of_eq fun s ↦ ?_
  rw [TimerManager.getNextTimer]
  cases s.timers <;> rfl

theorem computes_expire (timer : Address) (now : UInt64) :
    Computes (expire timer now) fun s : TimerManager γ κ ↦ ((), s.expire timer now) := by
  refine ((Computes.look _).bind fun _ ↦ Computes.ite
    ((Computes.assign _).bind fun _ ↦ Computes.modify _) (Computes.assign _)).of_eq fun s ↦ ?_
  rw [TimerManager.expire]
  exact (apply_ite (Prod.mk ()) _ _ _).symm

theorem computes_expireAll (now : UInt64) (expired : List Address) :
    Computes (expireAll now expired) fun s : TimerManager γ κ ↦ s.expireAll now expired := by
  induction expired with
  | nil => exact Computes.pure []
  | cons timer rest ih =>
    exact (Computes.look _).bind fun _ ↦ (computes_expire timer now).bind fun _ ↦
      ih.bind fun _ ↦ Computes.pure _

theorem computes_getExpiredCb (probe : Address) (now : UInt64) :
    Computes (getExpiredCb probe now) fun s : TimerManager γ κ ↦ s.getExpiredCb probe now :=
  (Computes.underLock (Computes.look _)).bind fun _ ↦ Computes.ite (Computes.pure []) <|
    Computes.underLock <| (Computes.look _).bind fun _ ↦ (Computes.look _).bind fun expired ↦
      (Computes.modify _).bind fun _ ↦ computes_expireAll now expired

theorem computes_empty :
    Computes empty fun s : TimerManager γ κ ↦ (s.empty, s) :=
  Computes.underLock (Computes.look _)

/-- `cancel` computes the operation where that is defined; `erase(end())` is not. -/
theorem computes_cancel (timer : Address) :
    Computes (cancel timer) fun s : TimerManager γ κ ↦
      (s.cancel timer).toOption.getD
        (true, s.store timer { s.memory timer with cb := none }) := by
  refine (Computes.underLock ((Computes.look _).bind fun _ ↦ Computes.ite
    ((Computes.assign _).bind fun _ ↦ (Computes.look _).bind fun _ ↦ Computes.modify _)
    (Computes.pure false))).of_eq fun s ↦ ?_
  rw [TimerManager.cancel]
  by_cases hactive : (s.memory timer).cb.isSome = true
  · obtain ⟨cleared, hcleared⟩ :
        ∃ cleared, cleared = s.store timer { s.memory timer with cb := none } := ⟨_, rfl⟩
    simp only [hactive, if_true, ← hcleared]
    by_cases hfound : cleared.find timer < cleared.timers.length
    · rw [if_pos hfound]
      rfl
    · have hend : cleared.erase (cleared.find timer) = cleared := by
        rw [TimerManager.erase, List.eraseIdx_of_length_le (Nat.le_of_not_lt hfound)]
      rw [if_neg hfound, hend]
      rfl
  · simp only [hactive, if_false, Bool.false_eq_true]
    rfl

theorem computes_reset (timer : Address) (ms : UInt64) (fromNow : Bool) (now : UInt64) :
    Computes (reset timer ms fromNow now) fun s : TimerManager γ κ ↦
      ((s.reset timer ms fromNow now).1, (s.reset timer ms fromNow now).2.2) := by
  refine (Computes.underLock ((Computes.look _).bind fun _ ↦ Computes.ite
    ((Computes.look _).bind fun _ ↦ (Computes.look _).bind fun _ ↦ Computes.ite
      ((Computes.modify _).bind fun _ ↦ (Computes.assign _).bind fun _ ↦
        (computes_addTimerPtr timer).bind fun _ ↦ Computes.pure true)
      (Computes.pure false)) (Computes.pure false))).of_eq fun s ↦ ?_
  rw [TimerManager.reset]
  by_cases hactive : (s.memory timer).cb.isSome = true
  · by_cases hfound : s.find timer = s.timers.length
    · simp only [hactive, hfound, bne_self_eq_false, if_true, ne_eq, not_true, if_false,
        Bool.false_eq_true]
    · have hne : (s.find timer != s.timers.length) = true := bne_iff_ne.mpr hfound
      simp only [hactive, hne, hfound, if_true, ne_eq, not_false_eq_true]
      rfl
  · simp only [hactive, if_false, Bool.false_eq_true]

theorem computes_refresh (timer : Address) (now : UInt64) :
    Computes (refresh timer now) fun s : TimerManager γ κ ↦ s.refresh timer now := by
  refine (Computes.underLock ((Computes.look _).bind fun _ ↦ Computes.ite
    ((Computes.assign _).bind fun _ ↦ (Computes.look _).bind fun _ ↦
      (Computes.look _).bind fun _ ↦ Computes.ite
        ((Computes.modify _).bind fun _ ↦ (Computes.assign _).bind fun _ ↦ Computes.modify _)
        (Computes.pure false)) (Computes.pure false))).of_eq fun s ↦ ?_
  rw [TimerManager.refresh]
  by_cases hactive : (s.memory timer).cb.isSome = true
  · obtain ⟨cleared, hcleared⟩ :
        ∃ cleared, cleared = s.store timer { s.memory timer with cb := none } := ⟨_, rfl⟩
    have hms : (cleared.memory timer).ms = (s.memory timer).ms := by
      rw [hcleared, TimerManager.store_memory_self]
    simp only [hactive, if_true, ← hcleared]
    by_cases hfound : cleared.find timer = cleared.timers.length
    · simp only [hfound, bne_self_eq_false, ne_eq, not_true, if_false, Bool.false_eq_true]
    · have hne : (cleared.find timer != cleared.timers.length) = true := bne_iff_ne.mpr hfound
      simp only [hne, hfound, if_true, ne_eq, not_false_eq_true, ← hms]
      rfl
  · simp only [hactive, if_false, Bool.false_eq_true]

end Locked

/-! ### The operations -/

variable {γ κ : Type}

/-- The public operations of `TimerManager` and `Timer`, with the clock reading and the allocated
address that they get. -/
inductive Operation (γ κ : Type)
  | addTimer (address : Address) (ms : UInt64) (cb : Option γ) (recurring : Bool) (now : UInt64)
  | addConditionTimer (address : Address) (ms : UInt64) (cb : Option γ) (cond : κ)
      (recurring : Bool) (now : UInt64)
  | getNextTimer (now : UInt64)
  | getExpiredCb (probe : Address) (now : UInt64)
  | empty
  | cancel (timer : Address)
  | reset (timer : Address) (ms : UInt64) (fromNow : Bool) (now : UInt64)
  | refresh (timer : Address) (now : UInt64)
  deriving DecidableEq, Repr

namespace Operation

/-- What an operation does with the lock, started by a thread that does not hold it. The other
threads make `others` of the memory while this one does not hold the lock. -/
def trace (others : ℕ → TimerManager γ κ → TimerManager γ κ) (s : TimerManager γ κ) :
    Operation γ κ → List Event
  | .addTimer address ms cb recurring now =>
    (Locked.addTimer address ms (cb.map .given) recurring now).traceOf others s
  | .addConditionTimer address ms cb cond recurring now =>
    (Locked.addConditionTimer address ms cb cond recurring now).traceOf others s
  | .getNextTimer now => (Locked.getNextTimer now).traceOf others s
  | .getExpiredCb probe now => (Locked.getExpiredCb probe now).traceOf others s
  | .empty => Locked.empty.traceOf others s
  | .cancel timer => (Locked.cancel timer).traceOf others s
  | .reset timer ms fromNow now => (Locked.reset timer ms fromNow now).traceOf others s
  | .refresh timer now => (Locked.refresh timer now).traceOf others s

/-- The operation resets a timer that has a callback and is found in `m_timers`. -/
def ResetsListed (s : TimerManager γ κ) : Operation γ κ → Prop
  | .reset timer _ _ _ => Locked.Listed s timer
  | _ => False

end Operation

/-- Every path of every operation keeps to the lock, except that of a `reset` which finds its timer
in `m_timers` when it gets the lock. -/
theorem operation_disciplined_iff (operation : Operation γ κ)
    (others : ℕ → TimerManager γ κ → TimerManager γ κ) (s : TimerManager γ κ) :
    Legal none (operation.trace others s) none ↔ ¬ operation.ResetsListed (others 0 s) := by
  cases operation with
  | reset timer ms fromNow now =>
    refine ⟨fun hlegal hlisted ↦ ?_, fun hnot ↦ ?_⟩
    · obtain ⟨rest, hrest⟩ := Locked.traceOf_reset_of_listed ms fromNow now hlisted
      rw [Operation.trace, hrest] at hlegal
      simp [legal_cons_iff, follow] at hlegal
    · rw [Operation.trace, Locked.traceOf_reset_of_not_listed hnot]
      rfl
  | addTimer address ms cb recurring now =>
    exact iff_of_true ((Locked.keeps_addTimer _ _ _ _ _).legal_traceOf others s) not_false
  | addConditionTimer address ms cb cond recurring now =>
    exact iff_of_true ((Locked.keeps_addTimer _ _ _ _ _).legal_traceOf others s) not_false
  | getNextTimer now =>
    exact iff_of_true ((Locked.keeps_getNextTimer now).legal_traceOf others s) not_false
  | getExpiredCb probe now =>
    exact iff_of_true ((Locked.keeps_getExpiredCb probe now).legal_traceOf others s) not_false
  | empty =>
    exact iff_of_true ((Keeps.underLock (Keeps.look _ _)).legal_traceOf others s) not_false
  | cancel timer =>
    exact iff_of_true ((Locked.keeps_cancel timer).legal_traceOf others s) not_false
  | refresh timer now =>
    exact iff_of_true ((Locked.keeps_refresh timer now).legal_traceOf others s) not_false

/-- A manager with one timer at address 1, due at 5. -/
def oneTimer : TimerManager Unit Unit :=
  (TimerManager.init.addTimer 1 5 (some (.given ())) false 0).2

/-- Resetting that timer requests the lock a second time. -/
theorem reset_oneTimer_not_disciplined :
    ¬ Legal none ((Operation.reset 1 7 true 2).trace (fun _ s ↦ s) oneTimer) none := by
  decide

end Cczoe.Timers
