import Cczoe.Hook.Wrappers
import Cczoe.Scheduler.WaitingTasks
import Cczoe.Timer.TimerEffects

/-!
# The retry loop of `do_io`

A call that enters the loop of `do_io` calls the original function until it does anything but fail
with EINTR or EAGAIN. After EAGAIN it adds a timer, registers for its event and yields; the timer
callback marks the call as timed out and cancels the event. A `Loop` is an `IOManager` with its
timers and any number of calls, each in a phase of its own, and steps of all of them, of other users
of the table and the timers, and of the clock come in any order.

A call has a name, which stands for its fiber in the event table; a fiber that calls `do_io` again
has another name. `owner` tells which call made a timer.

The timer calls a lambda of `addTimer` that refers to the parameters `cb` and `cond` of `addTimer`,
which are gone when it runs. What it finds in their place is an input of the step that runs it.
-/

set_option autoImplicit false
set_option relaxedAutoImplicit false

namespace Cczoe.Hook

/-- The calls that enter the loop: hooking is on, the descriptor is tracked, open and a socket, and
the user has not made it non-blocking. -/
theorem World.doIo_blocks_iff {κ : Type} (os : Os κ) (thread : Thread) (w : World κ) (fd : ℤ)
    (call : Call) (event : Scheduler.Event) (soTimeout : ℤ) (timeout : UInt64) :
    w.doIo os thread fd call event soTimeout = .ok (.blocks call fd event timeout, w) ↔
      thread.hookEnable = true ∧ ∃ number ctx, w.context fd = some (number, ctx) ∧
        ctx.isClosed = false ∧ ctx.isSocket = true ∧ ctx.userNonblock = false ∧
        ctx.getTimeout soTimeout = timeout := by
  constructor
  · intro hblocks
    unfold doIo at hblocks
    split_ifs at hblocks with hoff
    · cases hblocks
    · cases hcontext : w.context fd with
      | none =>
        simp only [hcontext] at hblocks
        cases hblocks
      | some tracked =>
        obtain ⟨number, ctx⟩ := tracked
        simp only [hcontext] at hblocks
        split_ifs at hblocks with hclosed hplain
        · cases hblocks
        · cases hblocks
        · cases hblocks
          obtain ⟨hsocket, hblocking⟩ := not_or.mp hplain
          exact ⟨Bool.of_not_eq_false hoff, number, ctx, rfl, Bool.of_not_eq_true hclosed,
            Bool.of_not_eq_false hsocket, Bool.of_not_eq_true hblocking, rfl⟩
  · rintro ⟨hon, number, ctx, hcontext, hclosed, hsocket, hblocking, rfl⟩
    simp [doIo, hon, hcontext, hclosed, hsocket, hblocking]

end Cczoe.Hook

namespace Cczoe.Hook.Blocking

open Cczoe.Scheduler (Fd Event IOManager CtlOp Events Trigger Task)
open Cczoe.Timers (Address TimerManager Callback)

/-- `EINTR`. -/
def eintr : ℤ := 4

/-- `EAGAIN`. -/
def eagain : ℤ := 11

/-- `ETIMEDOUT`. -/
def etimedout : ℤ := 110

/-- A callback that is given to `addTimer`: the lambda of `do_io`, with what it captures, or one of
other code. -/
inductive Body
  | timeout (name : ℕ) (fd : Fd) (event : Event)
  | other (number : ℕ)
  deriving DecidableEq, Repr

/-- A `weak_ptr` that is given to `addTimer`: to the `TimeInfo` of a call, or one of other code. -/
inductive Weak
  | timeInfo (name : ℕ)
  | other (number : ℕ)
  deriving DecidableEq, Repr

/-- How a call has left the loop. -/
inductive Exit
  /-- `return n` after a call of the original function. -/
  | passed
  /-- `timeInfo->cancelled` is set. -/
  | timedOut
  | addEventFailed
  deriving DecidableEq, Repr

/-- Where a call is. The timer is the local variable of that name. -/
inductive Phase
  /-- Before a call of the original function. -/
  | calling
  /-- After EAGAIN. -/
  | refused
  /-- Before `addEvent`. -/
  | armed (timer : Option Address)
  /-- After an `addEvent` that has failed. -/
  | failed (timer : Option Address) (errno : ℤ)
  | suspended (timer : Option Address)
  /-- Handed to the scheduler by a trigger. -/
  | woken (timer : Option Address)
  /-- Before the test of `timeInfo->cancelled`. -/
  | resumed
  | returned (value errno : ℤ) (exit : Exit) (finished : UInt64)
  deriving DecidableEq, Repr

/-- The timer that a call holds. -/
def Phase.timer : Phase → Option Address
  | .armed timer | .failed timer _ | .suspended timer | .woken timer => timer
  | .calling | .refused | .resumed | .returned _ _ _ _ => none

/-- What a call is for, and the time at which it began. -/
structure Job where
  fd : Fd
  event : Event
  timeout : UInt64
  began : UInt64
  deriving DecidableEq, Repr

/-- The time from which on a call may time out. -/
def Job.due (job : Job) : ℕ := job.began.toNat + job.timeout.toNat

/-- The callback of the timers that a call adds. -/
def Job.callback (job : Job) (name : ℕ) : Callback Body Weak :=
  .conditional (some (.timeout name job.fd job.event)) (.timeInfo name)

/-- A call in the loop. `cancelled` tells whether `timeInfo->cancelled` is ETIMEDOUT or zero, and
`last` is what the last call of the original function has returned, with `errno`. -/
structure IoCall where
  job : Job
  phase : Phase := .calling
  cancelled : Bool := false
  last : Option (ℤ × ℤ) := none
  deriving DecidableEq, Repr

/-- The calls with their surroundings: the event table, the timers, the expired callbacks that are
scheduled, and the timer callbacks that are about to call `cancelEvent`. -/
structure Loop (κ : Type) where
  io : IOManager κ
  timers : TimerManager Body Weak
  owner : Address → Option ℕ
  calls : ℕ → Option IoCall
  tasks : List (Callback Body Weak)
  cancels : List (Fd × Event)
  clock : UInt64

/-- How a step stops. -/
inductive Fault
  /-- There is no such call, task or phase. -/
  | notEnabled
  | table (fault : Scheduler.Fault)
  | timer (fault : Timers.Fault)
  /-- The lambda of `addTimer` reads parameters that do not exist any more. -/
  | dangling
  | badFunctionCall
  deriving DecidableEq, Repr

/-- The steps. -/
inductive Action
  | tick (now : UInt64)
  | enter (name : ℕ) (fd : Fd) (event : Event) (timeout : UInt64)
  /-- The original function returns. -/
  | original (name : ℕ) (value errno : ℤ)
  /-- `addTimer`, unless the timeout is the largest number; the timer is allocated at `address`. -/
  | arm (name : ℕ) (address : Address)
  /-- `addEvent` and `yield`; `errno` is what a failing `epoll_ctl` sets. -/
  | register (name : ℕ) (scheduler : Option ℕ) (errno : ℤ)
  /-- The way out after an `addEvent` that has failed. -/
  | giveUp (name : ℕ)
  /-- The fiber goes on after `yield`. -/
  | resume (name : ℕ)
  /-- The test of `timeInfo->cancelled`. -/
  | check (name : ℕ)
  /-- `getExpiredCb`, whose callbacks are scheduled. -/
  | expire (probe : Address)
  /-- An expired callback runs. `found` is what is in the place of `cb` and `cond`, if anything. -/
  | runTask (position : ℕ) (found : Option (Option Body × Weak))
  /-- A timer callback calls `cancelEvent`. -/
  | runCancel (position : ℕ)
  /-- An action of other code on the event table, or a report. -/
  | events (action : Scheduler.Action)
  /-- An operation of other code on timers of its own. -/
  | timers (action : Timers.Action Body Weak)

namespace Loop

variable {κ : Type} (ctl : κ → CtlOp → Fd → Events → Bool × κ)

/-- No call has been made. -/
def init (kernel : κ) : Loop κ :=
  ⟨IOManager.init kernel, TimerManager.init, fun _ ↦ none, fun _ ↦ none, [], [], 0⟩

/-- A call changes. -/
def setCall (s : Loop κ) (name : ℕ) (call : IoCall) : Loop κ :=
  { s with calls := Function.update s.calls name (some call) }

/-- The call of the original function. EINTR repeats it. -/
def original (name : ℕ) (call : IoCall) (value errno : ℤ) (s : Loop κ) : Loop κ :=
  let phase :=
    if value = -1 ∧ errno = eintr then .calling
    else if value = -1 ∧ errno = eagain then .refused
    else .returned value errno .passed s.clock
  s.setCall name { call with phase := phase, last := some (value, errno) }

/-- `addTimer(timeout, …, cancel)` when there is a timeout. -/
def arm (name : ℕ) (call : IoCall) (address : Address) (s : Loop κ) : Loop κ :=
  if call.job.timeout ≠ 0xffffffffffffffff then
    { s with
      timers := (s.timers.addTimer address call.job.timeout (some (call.job.callback name)) false
        s.clock).2
      owner := Function.update s.owner address (some name) }.setCall name
        { call with phase := .armed (some address) }
  else s.setCall name { call with phase := .armed none }

/-- `addEvent(fd, event)`. On success the fiber yields. -/
def register (name : ℕ) (call : IoCall) (timer : Option Address) (scheduler : Option ℕ)
    (errno : ℤ) (s : Loop κ) : Except Fault (Loop κ) :=
  match IOManager.step ctl (.addEvent call.job.fd call.job.event ⟨scheduler, name, true⟩ none)
    s.io with
  | .error fault => .error (.table fault)
  | .ok (outcome, io) =>
    let phase := if outcome.ret ≠ 0 then .failed timer errno else .suspended timer
    .ok ({ s with io := io }.setCall name { call with phase := phase })

/-- `timer->cancel()` when there is a timer, which is freed when the variable goes. -/
def disarm (timer : Option Address) (s : Loop κ) : Except Fault (Loop κ) :=
  match timer with
  | none => .ok s
  | some address =>
    match s.timers.cancel address with
    | .error fault => .error (.timer fault)
    | .ok (_, timers) =>
      .ok { s with timers := { timers with live := timers.live.erase address } }

/-- The test of `timeInfo->cancelled`. -/
def check (name : ℕ) (call : IoCall) (s : Loop κ) : Loop κ :=
  let phase :=
    if call.cancelled then .returned (-1) etimedout .timedOut s.clock else .calling
  s.setCall name { call with phase := phase }

/-- A trigger for a descriptor hands the fiber of a call to the scheduler. -/
def wake (fd : Fd) (triggers : List Trigger) (name : ℕ) (call : IoCall) : IoCall :=
  match call.phase with
  | .suspended timer =>
    if call.job.fd = fd ∧ ∃ trigger ∈ triggers,
        trigger.event = call.job.event ∧ trigger.task = some (.fiber name) then
      { call with phase := .woken timer }
    else call
  | _ => call

/-- An action on the event table, with the calls that it wakes. -/
def onTable (action : Scheduler.Action) (s : Loop κ) : Except Fault (Loop κ) :=
  match IOManager.step ctl action s.io with
  | .error fault => .error (.table fault)
  | .ok (outcome, io) =>
    .ok { s with
      io := io
      calls := fun name ↦ (s.calls name).map (wake action.fd outcome.triggers name) }

/-- `getExpiredCb`. -/
def expire (probe : Address) (s : Loop κ) : Loop κ :=
  let expired := s.timers.getExpiredCb probe s.clock
  { s with timers := expired.2, tasks := s.tasks ++ expired.1.filterMap id }

/-- The call to whose `TimeInfo` there is still a pointer. -/
def alive (s : Loop κ) (name : ℕ) : Option IoCall :=
  (s.calls name).filter fun call ↦
    match call.phase with
    | .returned _ _ _ _ => false
    | _ => true

/-- Whether `cond.lock()` returns a pointer. -/
def lock (s : Loop κ) : Weak → Bool
  | .timeInfo name => (s.alive name).isSome
  | .other _ => true

/-- A callback runs. The lambda of `do_io` is cut before `cancelEvent`. -/
def runBody (s : Loop κ) : Body → Loop κ
  | .timeout name fd event =>
    match s.alive name with
    | none => s
    | some call =>
      if call.cancelled = false then
        { s with cancels := s.cancels ++ [(fd, event)] }.setCall name
          { call with cancelled := true }
      else s
  | .other _ => s

/-- An expired callback runs, one given to `addTimer` or its lambda. -/
def runTask (found : Option (Option Body × Weak)) (task : Callback Body Weak) (s : Loop κ) :
    Except Fault (Loop κ) :=
  match task with
  | .given cb => .ok (s.runBody cb)
  | .conditional _ _ =>
    match found with
    | none => .error .dangling
    | some (cb, cond) =>
      if s.lock cond then
        match cb with
        | none => .error .badFunctionCall
        | some body => .ok (s.runBody body)
      else .ok s

/-- An operation of other code on one of its timers. -/
def onTimers (action : Timers.Action Body Weak) (s : Loop κ) : Except Fault (Loop κ) :=
  match TimerManager.step action s.timers with
  | .error fault => .error (.timer fault)
  | .ok (_, timers) =>
    match action.target with
    | none => .error .notEnabled
    | some address =>
      .ok { s with timers := timers, owner := Function.update s.owner address none }

/-- A step of a call. -/
def withCall (name : ℕ) (body : IoCall → Except Fault (Loop κ)) (s : Loop κ) :
    Except Fault (Loop κ) :=
  match s.calls name with
  | none => .error .notEnabled
  | some call => body call

/-- One step, without an output. -/
def next (action : Action) (s : Loop κ) : Except Fault (Loop κ) :=
  match action with
  | .tick now => .ok { s with clock := now }
  | .enter name fd event timeout =>
    .ok (s.setCall name { job := ⟨fd, event, timeout, s.clock⟩ })
  | .original name value errno => s.withCall name fun call ↦
    match call.phase with
    | .calling => .ok (s.original name call value errno)
    | _ => .error .notEnabled
  | .arm name address => s.withCall name fun call ↦
    match call.phase with
    | .refused => .ok (s.arm name call address)
    | _ => .error .notEnabled
  | .register name scheduler errno => s.withCall name fun call ↦
    match call.phase with
    | .armed timer => s.register ctl name call timer scheduler errno
    | _ => .error .notEnabled
  | .giveUp name => s.withCall name fun call ↦
    match call.phase with
    | .failed timer errno => (s.disarm timer).map fun after ↦
      after.setCall name { call with phase := .returned (-1) errno .addEventFailed s.clock }
    | _ => .error .notEnabled
  | .resume name => s.withCall name fun call ↦
    match call.phase with
    | .woken timer => (s.disarm timer).map fun after ↦
      after.setCall name { call with phase := .resumed }
    | _ => .error .notEnabled
  | .check name => s.withCall name fun call ↦
    match call.phase with
    | .resumed => .ok (s.check name call)
    | _ => .error .notEnabled
  | .expire probe => .ok (s.expire probe)
  | .runTask position found =>
    match s.tasks[position]? with
    | none => .error .notEnabled
    | some task => { s with tasks := s.tasks.eraseIdx position }.runTask found task
  | .runCancel position =>
    match s.cancels[position]? with
    | none => .error .notEnabled
    | some (fd, event) =>
      { s with cancels := s.cancels.eraseIdx position }.onTable ctl (.cancelEvent fd event)
  | .events action => s.onTable ctl action
  | .timers action => s.onTimers action

/-- One step. -/
def step (action : Action) (s : Loop κ) : Except Fault (Unit × Loop κ) :=
  (s.next ctl action).map fun after ↦ ((), after)

/-- A callback that is not the lambda of a `do_io`. -/
def Harmless : Callback Body Weak → Prop
  | .given (.timeout _ _ _) | .conditional (some (.timeout _ _ _)) _ => False
  | .given (.other _) | .conditional (some (.other _)) _ | .conditional none _ => True

/-- The operations that other code can make: on its own timers, with its own callbacks. -/
def Foreign (s : Loop κ) (action : Timers.Action Body Weak) : Prop :=
  s.timers.Guard action ∧
    (∃ address, action.target = some address ∧
      (address ∈ s.timers.live → s.owner address = none)) ∧
    ∀ cb, action.stored = some cb → Harmless cb

/-- The steps that can be made. The clock does not go back and the deadlines do not overflow; names
and memory are not in use; a failing `epoll_ctl` does not set ETIMEDOUT; other code registers
fibers of its own. The last condition is not seen to by the code: the lambda of `addTimer` finds the
parameters of its own `addTimer`. -/
def Allowed (s : Loop κ) : Action → Prop
  | .tick now => s.clock ≤ now
  | .enter name _ _ _ => s.calls name = none ∧
      ∀ fd event, (s.io.context fd).waiting event ≠ some (.fiber name)
  | .arm name address => address ∉ s.timers.live ∧
      ∀ call, s.calls name = some call → call.job.timeout ≠ 0xffffffffffffffff →
        s.clock.toNat + call.job.timeout.toNat < 2 ^ 64
  | .register _ _ errno => errno ≠ etimedout
  | .expire probe => probe ∉ s.timers.live
  | .events action => ∀ fd event caller, action = .addEvent fd event caller none →
      s.calls caller.fiber = none
  | .timers action => s.Foreign action
  | .runTask position found => ∀ cb cond, s.tasks[position]? = some (.conditional cb cond) →
      found = some (cb, cond)
  | .original _ _ _ | .giveUp _ | .resume _ | .check _ | .runCancel _ => True

end Loop

end Cczoe.Hook.Blocking
