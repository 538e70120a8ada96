import Cczoe.Foundations.GuardedRuns
import Cczoe.Hook.BlockingCall

/-!
# What a call of `do_io` leaves behind

A call that has returned is to have no timer in the set and no registration in the event table, and
to report a timeout of its own only when its time is up. Four things are kept along a run, each with
lemmas for the steps that touch it: the timers in the set that calls have made are held by these
calls (`TimersKept`), the fibers that wait are those of suspended calls (`WaitsKept`), the timeout
callbacks that are scheduled are due (`TasksKept`), and so are the calls that are marked
(`IoCall.Sound`). `returned_call_is_clean` draws the conclusions.

`do_io` passes on a failure with ETIMEDOUT of the original function, at any time
(`original_timeout_is_passed_on`).
-/

set_option autoImplicit false
set_option relaxedAutoImplicit false

namespace Cczoe.Hook.Blocking

open Cczoe.Foundations
open Cczoe.Scheduler (Fd Event IOManager CtlOp Events Trigger Task)
open Cczoe.Timers (Address Timer TimerManager Callback)

/-- The failures after which `do_io` calls the original function again. -/
def Retried (value errno : ℤ) : Prop := value = -1 ∧ (errno = eintr ∨ errno = eagain)

/-- What has to hold of a result, by the way the call has left the loop. -/
def IoCall.Justified (call : IoCall) (value errno : ℤ) (finished : UInt64) : Exit → Prop
  | .passed => call.last = some (value, errno) ∧ ¬ Retried value errno
  | .timedOut => call.job.due ≤ finished.toNat
  | .addEventFailed => errno ≠ etimedout

/-- A call is marked as timed out only when its time is up, and its result is justified. -/
structure IoCall.Sound (clock : UInt64) (call : IoCall) : Prop where
  begun : call.job.began.toNat ≤ clock.toNat
  flagged : call.cancelled = true → call.job.due ≤ clock.toNat
  failed : ∀ timer errno, call.phase = .failed timer errno → errno ≠ etimedout
  returned : ∀ value errno exit finished, call.phase = .returned value errno exit finished →
    call.Justified value errno finished exit

/-- A timer that a call has added. -/
structure Arms (name : ℕ) (job : Job) (timer : Timer Body Weak) : Prop where
  once : timer.recurring = false
  cb_eq : timer.cb = some (job.callback name)
  due_le : job.due ≤ timer.next.toNat

/-- The set holds the timers of calls that hold them too. A timer of other code does not have the
callback of a call. -/
structure TimersKept (timers : TimerManager Body Weak) (owner : Address → Option ℕ)
    (calls : ℕ → Option IoCall) : Prop where
  consistent : timers.Consistent
  harmless : ∀ address, owner address = none → ∀ cb, (timers.memory address).cb = some cb →
    Loop.Harmless cb
  kept : ∀ address ∈ timers.timers, ∀ name, owner address = some name → ∃ call,
    calls name = some call ∧ call.phase.timer = some address ∧
      Arms name call.job (timers.memory address)
  held : ∀ name call address, calls name = some call → call.phase.timer = some address →
    address ∈ timers.live ∧ owner address = some name

/-- A call that waits is suspended, and waits for its own event. -/
def WaitsKept {κ : Type} (io : IOManager κ) (calls : ℕ → Option IoCall) : Prop :=
  ∀ name call fd event, calls name = some call →
    (io.context fd).waiting event = some (.fiber name) →
      (∃ timer, call.phase = .suspended timer) ∧ call.job.fd = fd ∧ call.job.event = event

/-- The callback that a task is to run. -/
def bodyOf : Callback Body Weak → Option Body
  | .given cb => some cb
  | .conditional cb _ => cb

/-- The timeout callbacks that are scheduled are due. -/
def TasksKept (tasks : List (Callback Body Weak)) (calls : ℕ → Option IoCall)
    (clock : UInt64) : Prop :=
  ∀ task ∈ tasks, ∀ name fd event, bodyOf task = some (.timeout name fd event) →
    ∃ call, calls name = some call ∧ call.job.due ≤ clock.toNat

/-- What is kept along a run. -/
structure Loop.Sound {κ : Type} (s : Loop κ) : Prop where
  timers : TimersKept s.timers s.owner s.calls
  waits : WaitsKept s.io s.calls
  tasks : TasksKept s.tasks s.calls s.clock
  calls : ∀ name call, s.calls name = some call → call.Sound s.clock

/-- The calls go on with the timers they hold, and no call is new that holds one. -/
structure SameTimers (calls after : ℕ → Option IoCall) : Prop where
  forth : ∀ name call, calls name = some call → ∃ changed, after name = some changed ∧
    changed.job = call.job ∧ changed.phase.timer = call.phase.timer
  back : ∀ name changed address, after name = some changed →
    changed.phase.timer = some address →
      ∃ call, calls name = some call ∧ call.phase.timer = some address

/-- Assumes: another value at a key after an update. The key is another one, and had the value
before. -/
theorem of_update {α β : Type} [DecidableEq α] {f : α → β} {changed key : α} {value found : β}
    (hvalue : value ≠ found) (hfound : Function.update f changed value key = found) :
    key ≠ changed ∧ f key = found := by
  have hne : key ≠ changed := by
    rintro rfl
    rw [Function.update_self] at hfound
    exact hvalue hfound
  rw [Function.update_of_ne hne] at hfound
  exact ⟨hne, hfound⟩

section Calls

variable {calls : ℕ → Option IoCall} {name : ℕ} {call changed : IoCall}

/-- A call of another name is the same after one call has changed. -/
theorem update_of_some {other : ℕ} {found : IoCall} (hne : other ≠ name) :
    Function.update calls name (some changed) other = some found ↔ calls other = some found := by
  rw [Function.update_of_ne hne]

/-- Assumes: a call that changes and holds the same timer. -/
theorem sameTimers_update (hcall : calls name = some call) (hjob : changed.job = call.job)
    (htimer : changed.phase.timer = call.phase.timer) :
    SameTimers calls (Function.update calls name (some changed)) where
  forth := by
    intro other found hfound
    by_cases hsame : other = name
    · subst hsame
      cases hcall.symm.trans hfound
      exact ⟨changed, Function.update_self .., hjob, htimer⟩
    · exact ⟨found, (update_of_some hsame).mpr hfound, rfl, rfl⟩
  back := by
    intro other found address hfound hheld
    by_cases hsame : other = name
    · subst hsame
      rw [Function.update_self] at hfound
      cases hfound
      exact ⟨call, hcall, htimer.symm.trans hheld⟩
    · exact ⟨found, (update_of_some hsame).mp hfound, hheld⟩

/-- Assumes: a new call, which holds no timer. -/
theorem sameTimers_enter (hnew : calls name = none) (htimer : changed.phase.timer = none) :
    SameTimers calls (Function.update calls name (some changed)) where
  forth := by
    intro other found hfound
    have hne : other ≠ name := by
      rintro rfl
      cases hnew.symm.trans hfound
    exact ⟨found, (update_of_some hne).mpr hfound, rfl, rfl⟩
  back := by
    intro other found address hfound hheld
    have hne : other ≠ name := by
      rintro rfl
      rw [Function.update_self] at hfound
      cases hfound
      cases htimer.symm.trans hheld
    exact ⟨found, (update_of_some hne).mp hfound, hheld⟩

/-- A call that is woken, or not, has the same job and timer. -/
theorem wake_same (fd : Fd) (triggers : List Trigger) (name : ℕ) (call : IoCall) :
    (Loop.wake fd triggers name call).job = call.job ∧
      (Loop.wake fd triggers name call).phase.timer = call.phase.timer := by
  unfold Loop.wake
  cases hphase : call.phase with
  | suspended timer =>
    simp only
    split_ifs
    · exact ⟨rfl, rfl⟩
    · exact ⟨rfl, by rw [hphase]⟩
  | _ => exact ⟨rfl, by rw [hphase]⟩

theorem sameTimers_wake (fd : Fd) (triggers : List Trigger) :
    SameTimers calls fun name ↦ (calls name).map (Loop.wake fd triggers name) where
  forth := by
    intro name call hcall
    refine ⟨_, ?_, wake_same fd triggers name call⟩
    rw [hcall, Option.map_some]
  back := by
    intro name changed address hchanged hheld
    obtain ⟨call, hcall, rfl⟩ := Option.map_eq_some_iff.mp hchanged
    exact ⟨call, hcall, (wake_same fd triggers name call).2.symm.trans hheld⟩

end Calls

section Timers

variable {timers : TimerManager Body Weak} {owner : Address → Option ℕ}
  {calls after : ℕ → Option IoCall} {name : ℕ} {call changed : IoCall} {address : Address}
  {clock : UInt64}

theorem TimersKept.same (hs : TimersKept timers owner calls) (hsame : SameTimers calls after) :
    TimersKept timers owner after where
  consistent := hs.consistent
  harmless := hs.harmless
  kept := by
    intro address hmem name howner
    obtain ⟨call, hcall, hheld, harms⟩ := hs.kept address hmem name howner
    obtain ⟨changed, hchanged, hjob, htimer⟩ := hsame.forth name call hcall
    exact ⟨changed, hchanged, htimer.trans hheld, hjob.symm ▸ harms⟩
  held := by
    intro name changed address hchanged hheld
    obtain ⟨call, hcall, hbefore⟩ := hsame.back name changed address hchanged hheld
    exact hs.held name call address hcall hbefore

/-- Assumes: a call that holds no timer adds one, whose deadline does not overflow. -/
theorem TimersKept.arm (hs : TimersKept timers owner calls) (hcall : calls name = some call)
    (hnone : call.phase.timer = none) (hfree : address ∉ timers.live)
    (hbegun : call.job.began.toNat ≤ clock.toNat)
    (hfits : clock.toNat + call.job.timeout.toNat < 2 ^ 64) (hjob : changed.job = call.job)
    (htimer : changed.phase.timer = some address) :
    TimersKept
      (timers.addTimer address call.job.timeout (some (call.job.callback name)) false clock).2
      (Function.update owner address (some name)) (Function.update calls name (some changed)) := by
  have hframe : timers.Frame address (timers.addTimer address call.job.timeout
      (some (call.job.callback name)) false clock).2 := TimerManager.addTimer_frame ..
  refine ⟨hs.consistent.addTimer hfree _ _ _ _, ?_, ?_, ?_⟩
  · intro other hother cb hcb
    obtain ⟨hne, hother⟩ := of_update (Option.some_ne_none name) hother
    rw [hframe.memory other hne] at hcb
    exact hs.harmless other hother cb hcb
  · intro other hmem holder hother
    by_cases hsame : other = address
    · subst hsame
      rw [Function.update_self] at hother
      cases hother
      refine ⟨changed, Function.update_self .., htimer, ?_⟩
      rw [hjob, TimerManager.addTimer_memory_self]
      refine ⟨rfl, rfl, ?_⟩
      rw [Job.due, UInt64.toNat_add, Nat.mod_eq_of_lt hfits]
      exact Nat.add_le_add_right hbegun _
    · rw [Function.update_of_ne hsame] at hother
      obtain ⟨found, hfound, hheld, harms⟩ :=
        hs.kept other (hframe.timers other hmem hsame) holder hother
      have hne : holder ≠ name := by
        rintro rfl
        cases hcall.symm.trans hfound
        cases hnone.symm.trans hheld
      refine ⟨found, (update_of_some hne).mpr hfound, hheld, ?_⟩
      rw [hframe.memory other hsame]
      exact harms
  · intro holder found other hfound hheld
    by_cases hsame : holder = name
    · subst hsame
      rw [Function.update_self] at hfound
      cases hfound
      cases htimer.symm.trans hheld
      exact ⟨List.mem_cons_self, Function.update_self ..⟩
    · obtain ⟨hlive, hother⟩ :=
        hs.held holder found other ((update_of_some hsame).mp hfound) hheld
      have hne : other ≠ address := by
        rintro rfl
        exact hfree hlive
      exact ⟨hframe.live other hlive hne, (Function.update_of_ne hne ..).trans hother⟩

/-- Assumes: a call cancels the timer it holds, and does not hold it any more. -/
theorem TimersKept.disarm (hs : TimersKept timers owner calls) (hcall : calls name = some call)
    (hheld : call.phase.timer = some address) {done : Bool} {cancelled : TimerManager Body Weak}
    (hcancel : timers.cancel address = .ok (done, cancelled))
    (hnone : changed.phase.timer = none) :
    TimersKept { cancelled with live := cancelled.live.erase address } owner
      (Function.update calls name (some changed)) := by
  obtain ⟨hlive, howner⟩ := hs.held name call address hcall hheld
  have hframe := TimerManager.cancel_frame hcancel
  have harmed : address ∈ timers.timers → (timers.memory address).cb.isSome := by
    intro hmem
    obtain ⟨_, -, -, harms⟩ := hs.kept address hmem name howner
    rw [harms.cb_eq]
    rfl
  obtain ⟨hconsistent, hgone, hsameLive⟩ := hs.consistent.cancel_effect hlive harmed hcancel
  refine ⟨hconsistent.release hgone, ?_, ?_, ?_⟩
  · intro other hother cb hcb
    have hne : other ≠ address := by
      rintro rfl
      cases howner.symm.trans hother
    refine hs.harmless other hother cb ?_
    rw [← hframe.memory other hne]
    exact hcb
  · intro other hmem holder hother
    have hne : other ≠ address := fun heq ↦ hgone (heq ▸ hmem)
    obtain ⟨found, hfound, hholds, harms⟩ :=
      hs.kept other (hframe.timers other hmem hne) holder hother
    have hholder : holder ≠ name := by
      rintro rfl
      cases hcall.symm.trans hfound
      exact hne (Option.some.inj (hholds.symm.trans hheld))
    refine ⟨found, (update_of_some hholder).mpr hfound, hholds, ?_⟩
    show Arms holder found.job (cancelled.memory other)
    rw [hframe.memory other hne]
    exact harms
  · intro holder found other hfound hholds
    have hholder : holder ≠ name := by
      rintro rfl
      rw [Function.update_self] at hfound
      cases hfound
      cases hnone.symm.trans hholds
    obtain ⟨hin, hother⟩ := hs.held holder found other ((update_of_some hholder).mp hfound) hholds
    have hne : other ≠ address := by
      rintro rfl
      exact hholder (Option.some.inj (hother.symm.trans howner))
    refine ⟨(List.mem_erase_of_ne hne).mpr ?_, hother⟩
    rw [hsameLive]
    exact hin

theorem TimersKept.expire (hs : TimersKept timers owner calls) (probe : Address) (now : UInt64) :
    TimersKept (timers.getExpiredCb probe now).2 owner calls where
  consistent := hs.consistent.getExpiredCb probe now
  harmless := by
    intro address howner cb hcb
    rcases timers.getExpiredCb_cb address probe now with hnone | hkept
    · cases hnone.symm.trans hcb
    · exact hs.harmless address howner cb (hkept.symm.trans hcb)
  kept := by
    intro address hmem name howner
    obtain ⟨hbefore, hsame⟩ := hs.consistent.mem_getExpiredCb hmem
    obtain ⟨call, hcall, hheld, harms⟩ := hs.kept address hbefore name howner
    rw [hsame harms.once]
    exact ⟨call, hcall, hheld, harms⟩
  held := by
    intro name call address hcall hheld
    rw [TimerManager.getExpiredCb_live]
    exact hs.held name call address hcall hheld

/-- Assumes: an operation of other code on one of its timers, or on memory that is not in use. -/
theorem TimersKept.foreign (hs : TimersKept timers owner calls)
    {action : Timers.Action Body Weak} {outcome : Timers.Outcome Body Weak}
    {operated : TimerManager Body Weak} (hguard : timers.Guard action)
    (htarget : action.target = some address)
    (howner : address ∈ timers.live → owner address = none)
    (hstored : ∀ cb, action.stored = some cb → Loop.Harmless cb)
    (hstep : TimerManager.step action timers = .ok (outcome, operated)) :
    TimersKept operated (Function.update owner address none) calls := by
  have hframe := TimerManager.step_frame htarget hstep
  have hconsistent : operated.Consistent := by
    obtain ⟨_, _, hreturned, hnext⟩ := hs.consistent.step hguard
    cases hstep.symm.trans hreturned
    exact hnext
  refine ⟨hconsistent, ?_, ?_, ?_⟩
  · intro other hother cb hcb
    by_cases hsame : other = address
    · subst hsame
      rcases TimerManager.step_cb hguard htarget hstep with hgiven | ⟨hlive, hnone | hold⟩
      · exact hstored cb (hgiven.symm.trans hcb)
      · cases hnone.symm.trans hcb
      · exact hs.harmless other (howner hlive) cb (hold.symm.trans hcb)
    · rw [Function.update_of_ne hsame] at hother
      rw [hframe.memory other hsame] at hcb
      exact hs.harmless other hother cb hcb
  · intro other hmem name hother
    obtain ⟨hne, hother⟩ := of_update (Option.some_ne_none name).symm hother
    rw [hframe.memory other hne]
    exact hs.kept other (hframe.timers other hmem hne) name hother
  · intro name call other hcall hheld
    obtain ⟨hlive, hother⟩ := hs.held name call other hcall hheld
    have hne : other ≠ address := by
      rintro rfl
      cases (howner hlive).symm.trans hother
    exact ⟨hframe.live other hlive hne, (Function.update_of_ne hne ..).trans hother⟩

end Timers

section Waits

variable {κ : Type} {ctl : κ → CtlOp → Fd → Events → Bool × κ} {io next : IOManager κ}
  {calls : ℕ → Option IoCall} {name : ℕ} {call changed : IoCall}

/-- Assumes: a call that changes and stays suspended when it is. -/
theorem WaitsKept.update (hs : WaitsKept io calls) (hcall : calls name = some call)
    (hjob : changed.job = call.job)
    (hsuspended : ∀ timer, call.phase = .suspended timer → ∃ timer,
      changed.phase = .suspended timer) :
    WaitsKept io (Function.update calls name (some changed)) := by
  intro other found fd event hfound hwaiting
  by_cases hsame : other = name
  · subst hsame
    rw [Function.update_self] at hfound
    cases hfound
    obtain ⟨⟨timer, hphase⟩, hfd, hevent⟩ := hs other call fd event hcall hwaiting
    rw [hjob]
    exact ⟨hsuspended timer hphase, hfd, hevent⟩
  · exact hs other found fd event ((update_of_some hsame).mp hfound) hwaiting

/-- Assumes: a new call, whose name does not wait. -/
theorem WaitsKept.enter (hs : WaitsKept io calls)
    (hfresh : ∀ fd event, (io.context fd).waiting event ≠ some (.fiber name)) :
    WaitsKept io (Function.update calls name (some changed)) := by
  intro other found fd event hfound hwaiting
  have hne : other ≠ name := by
    rintro rfl
    exact hfresh fd event hwaiting
  exact hs other found fd event ((update_of_some hne).mp hfound) hwaiting

/-- The task that `addEvent` without a callback stores is a callback that is left there, or the
fiber. -/
theorem fiber_supplied {eventCtx : Scheduler.EventContext} {caller : Scheduler.Caller}
    {cb : Option ℕ}
    (htask : (Scheduler.Locked.supplied eventCtx caller cb).task = some (.fiber name)) :
    cb = none ∧ caller.fiber = name := by
  cases cb with
  | some cb => cases htask
  | none =>
    cases hcb : eventCtx.cb with
    | some old =>
      simp only [Scheduler.Locked.supplied, Scheduler.EventContext.task, hcb] at htask
      cases htask
    | none =>
      simp only [Scheduler.Locked.supplied, Scheduler.EventContext.task, hcb] at htask
      cases htask
      exact ⟨rfl, rfl⟩

/-- Assumes: a call registers for its event. If that succeeds it is suspended. -/
theorem WaitsKept.register (hs : WaitsKept io calls) (hcall : calls name = some call)
    {scheduler : Option ℕ} {outcome : Scheduler.Outcome}
    (hstep : IOManager.step ctl
      (.addEvent call.job.fd call.job.event ⟨scheduler, name, true⟩ none) io = .ok (outcome, next))
    (hphase : ∀ timer, call.phase ≠ .suspended timer) (hjob : changed.job = call.job)
    (hsuspended : outcome.ret = 0 → ∃ timer, changed.phase = .suspended timer) :
    WaitsKept next (Function.update calls name (some changed)) := by
  intro other found fd event hfound hwaiting
  rcases Scheduler.step_waiting hstep hwaiting with hbefore | ⟨caller, cb, haction, hret, htask⟩
  · have hne : other ≠ name := by
      rintro rfl
      obtain ⟨⟨timer, hthere⟩, -⟩ := hs other call fd event hcall hbefore
      exact hphase timer hthere
    exact hs other found fd event ((update_of_some hne).mp hfound) hbefore
  · cases haction
    obtain ⟨-, rfl⟩ := fiber_supplied htask
    rw [Function.update_self] at hfound
    cases hfound
    rw [hjob]
    exact ⟨hsuspended hret, rfl, rfl⟩

/-- Assumes: an action on the event table that registers no call. The calls it wakes do not wait any
more. -/
theorem WaitsKept.onTable (hs : WaitsKept io calls) {action : Scheduler.Action}
    {outcome : Scheduler.Outcome}
    (hforeign : ∀ fd event caller, action = .addEvent fd event caller none →
      calls caller.fiber = none)
    (hstep : IOManager.step ctl action io = .ok (outcome, next)) :
    WaitsKept next fun name ↦ (calls name).map (Loop.wake action.fd outcome.triggers name) := by
  intro other found fd event hfound hwaiting
  obtain ⟨call, hcall, rfl⟩ := Option.map_eq_some_iff.mp hfound
  have hbefore : (io.context fd).waiting event = some (.fiber other) := by
    rcases Scheduler.step_waiting hstep hwaiting with hbefore | ⟨caller, cb, rfl, -, htask⟩
    · exact hbefore
    · obtain ⟨rfl, rfl⟩ := fiber_supplied htask
      cases (hforeign fd event caller rfl).symm.trans hcall
  obtain ⟨⟨timer, hphase⟩, rfl, rfl⟩ := hs other call fd event hcall hbefore
  obtain ⟨hjob, -⟩ := wake_same action.fd outcome.triggers other call
  rw [hjob]
  refine ⟨⟨timer, ?_⟩, rfl, rfl⟩
  unfold Loop.wake
  simp only [hphase]
  split_ifs with hwoken
  · obtain ⟨hfd, trigger, hmem, hevent, -⟩ := hwoken
    have hnone := Scheduler.step_triggers hstep hmem
    rw [← hfd, hevent, hwaiting] at hnone
    cases hnone
  · exact hphase

end Waits

section Tasks

variable {tasks : List (Callback Body Weak)} {calls after : ℕ → Option IoCall}
  {clock later : UInt64}

/-- The calls go on with their jobs. -/
def SameJobs (calls after : ℕ → Option IoCall) : Prop :=
  ∀ name call, calls name = some call → ∃ changed, after name = some changed ∧
    changed.job = call.job

theorem sameJobs_update {name : ℕ} {call changed : IoCall} (hcall : calls name = some call)
    (hjob : changed.job = call.job) :
    SameJobs calls (Function.update calls name (some changed)) := by
  intro other found hfound
  by_cases hsame : other = name
  · subst hsame
    cases hcall.symm.trans hfound
    exact ⟨changed, Function.update_self .., hjob⟩
  · exact ⟨found, (update_of_some hsame).mpr hfound, rfl⟩

theorem SameTimers.sameJobs (hsame : SameTimers calls after) : SameJobs calls after := by
  intro name call hcall
  obtain ⟨changed, hchanged, hjob, -⟩ := hsame.forth name call hcall
  exact ⟨changed, hchanged, hjob⟩

theorem TasksKept.same (hs : TasksKept tasks calls clock) (hsame : SameJobs calls after) :
    TasksKept tasks after clock := by
  intro task hmem name fd event hbody
  obtain ⟨call, hcall, hdue⟩ := hs task hmem name fd event hbody
  obtain ⟨changed, hchanged, hjob⟩ := hsame name call hcall
  exact ⟨changed, hchanged, hjob.symm ▸ hdue⟩

theorem TasksKept.mono (hs : TasksKept tasks calls clock) (hle : clock.toNat ≤ later.toNat) :
    TasksKept tasks calls later := by
  intro task hmem name fd event hbody
  obtain ⟨call, hcall, hdue⟩ := hs task hmem name fd event hbody
  exact ⟨call, hcall, hdue.trans hle⟩

theorem TasksKept.erase (hs : TasksKept tasks calls clock) (position : ℕ) :
    TasksKept (tasks.eraseIdx position) calls clock :=
  fun task hmem ↦ hs task (List.mem_of_mem_eraseIdx hmem)

/-- The callbacks of the timers that expire are due. -/
theorem TasksKept.expire {timers : TimerManager Body Weak} {owner : Address → Option ℕ}
    (hs : TasksKept tasks calls clock) (htimers : TimersKept timers owner calls) {probe : Address}
    (hprobe : probe ∉ timers.live) :
    TasksKept (tasks ++ (timers.getExpiredCb probe clock).1.filterMap id) calls clock := by
  intro task hmem name fd event hbody
  rcases List.mem_append.mp hmem with hold | hexpired
  · exact hs task hold name fd event hbody
  · obtain ⟨cb, hcb, rfl⟩ := List.mem_filterMap.mp hexpired
    have hfree : probe ∉ timers.timers := fun hin ↦
      hprobe (htimers.consistent.tracked probe hin)
    obtain ⟨address, hin, hdue, hstored⟩ := htimers.consistent.callback_due hfree hcb
    cases howner : owner address with
    | none =>
      have hharmless := htimers.harmless address howner task hstored
      cases task with
      | given cb =>
        cases hbody
        exact hharmless.elim
      | conditional cb cond =>
        cases hbody
        exact hharmless.elim
    | some holder =>
      obtain ⟨call, hcall, -, harms⟩ := htimers.kept address hin holder howner
      cases harms.cb_eq.symm.trans hstored
      cases hbody
      exact ⟨call, hcall, harms.due_le.trans (UInt64.le_iff_toNat_le.mp hdue)⟩

end Tasks

/-! ### Steps -/

/-- A later clock keeps a call sound. -/
theorem IoCall.Sound.mono {call : IoCall} {clock later : UInt64} (hs : call.Sound clock)
    (hle : clock.toNat ≤ later.toNat) : call.Sound later where
  begun := hs.begun.trans hle
  flagged := fun hcancelled ↦ (hs.flagged hcancelled).trans hle
  failed := hs.failed
  returned := hs.returned

namespace Loop

variable {κ : Type} {ctl : κ → CtlOp → Fd → Events → Bool × κ} {s after : Loop κ} {name : ℕ}
  {call changed : IoCall}

/-- Assumes: all calls are sound, and one changes into a sound one. -/
theorem Sound.calls_update (hs : s.Sound) (hsound : changed.Sound s.clock) :
    ∀ other found, Function.update s.calls name (some changed) other = some found →
      found.Sound s.clock := by
  intro other found hfound
  by_cases hsame : other = name
  · subst hsame
    rw [Function.update_self] at hfound
    cases hfound
    exact hsound
  · exact hs.calls other found ((update_of_some hsame).mp hfound)

/-- Assumes: a call changes, holds the same timer and is not suspended. -/
theorem Sound.update (hs : s.Sound) (hcall : s.calls name = some call) {phase : Phase}
    (hphase : call.phase = phase) (hrunning : ∀ timer, phase ≠ .suspended timer)
    (hjob : changed.job = call.job) (htimer : changed.phase.timer = phase.timer)
    (hsound : changed.Sound s.clock) : (s.setCall name changed).Sound := by
  subst hphase
  exact ⟨hs.timers.same (sameTimers_update hcall hjob htimer),
    hs.waits.update hcall hjob fun timer hthere ↦ absurd hthere (hrunning timer),
    hs.tasks.same (sameJobs_update hcall hjob), hs.calls_update hsound⟩

theorem Sound.tick (hs : s.Sound) {now : UInt64} (hle : s.clock ≤ now) :
    { s with clock := now }.Sound where
  timers := hs.timers
  waits := hs.waits
  tasks := hs.tasks.mono (UInt64.le_iff_toNat_le.mp hle)
  calls := fun name call hcall ↦
    (hs.calls name call hcall).mono (UInt64.le_iff_toNat_le.mp hle)

theorem Sound.enter (hs : s.Sound) (fd : Fd) (event : Event) (timeout : UInt64)
    (hnew : s.calls name = none)
    (hfresh : ∀ fd event, (s.io.context fd).waiting event ≠ some (.fiber name)) :
    (s.setCall name { job := ⟨fd, event, timeout, s.clock⟩ }).Sound where
  timers := hs.timers.same (sameTimers_enter hnew rfl)
  waits := hs.waits.enter hfresh
  tasks := hs.tasks.same (sameTimers_enter hnew rfl).sameJobs
  calls := hs.calls_update ⟨Nat.le_refl _, nofun, nofun, nofun⟩

/-- The original function returns. -/
theorem Sound.original (hs : s.Sound) (hcall : s.calls name = some call)
    (hphase : call.phase = .calling) (value errno : ℤ) :
    (s.original name call value errno).Sound := by
  have hbefore := hs.calls name call hcall
  unfold Loop.original
  by_cases hinterrupted : value = -1 ∧ errno = eintr
  · simp only [if_pos hinterrupted]
    exact hs.update hcall hphase nofun rfl rfl ⟨hbefore.begun, hbefore.flagged, nofun, nofun⟩
  · by_cases hagain : value = -1 ∧ errno = eagain
    · simp only [if_neg hinterrupted, if_pos hagain]
      exact hs.update hcall hphase nofun rfl rfl ⟨hbefore.begun, hbefore.flagged, nofun, nofun⟩
    · simp only [if_neg hinterrupted, if_neg hagain]
      refine hs.update hcall hphase nofun rfl rfl ⟨hbefore.begun, hbefore.flagged, nofun, ?_⟩
      intro value' errno' exit finished hreturned
      cases hreturned
      refine ⟨rfl, ?_⟩
      rintro ⟨hvalue, herrno | herrno⟩
      · exact hinterrupted ⟨hvalue, herrno⟩
      · exact hagain ⟨hvalue, herrno⟩

/-- A call adds its timer. -/
theorem Sound.arm (hs : s.Sound) (hcall : s.calls name = some call)
    (hphase : call.phase = .refused) {address : Address} (hfree : address ∉ s.timers.live)
    (hfits : call.job.timeout ≠ 0xffffffffffffffff →
      s.clock.toNat + call.job.timeout.toNat < 2 ^ 64) :
    (s.arm name call address).Sound := by
  have hbefore := hs.calls name call hcall
  unfold Loop.arm
  by_cases htimeout : call.job.timeout ≠ 0xffffffffffffffff
  · rw [if_pos htimeout]
    have hnone : call.phase.timer = none := by
      rw [hphase]
      rfl
    refine ⟨hs.timers.arm hcall hnone hfree hbefore.begun (hfits htimeout) rfl rfl,
      hs.waits.update hcall rfl ?_, hs.tasks.same (sameJobs_update hcall rfl),
      hs.calls_update ⟨hbefore.begun, hbefore.flagged, nofun, nofun⟩⟩
    intro timer hthere
    cases hphase.symm.trans hthere
  · rw [if_neg htimeout]
    exact hs.update hcall hphase nofun rfl rfl ⟨hbefore.begun, hbefore.flagged, nofun, nofun⟩

/-- A call registers for its event. -/
theorem Sound.register (hs : s.Sound) (hcall : s.calls name = some call) {timer : Option Address}
    (hphase : call.phase = .armed timer) {scheduler : Option ℕ} {errno : ℤ}
    (herrno : errno ≠ etimedout)
    (hstep : s.register ctl name call timer scheduler errno = .ok after) : after.Sound := by
  have hbefore := hs.calls name call hcall
  have hheld : call.phase.timer = timer := by
    rw [hphase]
    rfl
  have hrunning : ∀ timer, call.phase ≠ .suspended timer := by
    rw [hphase]
    nofun
  unfold Loop.register at hstep
  cases htable : IOManager.step ctl
      (.addEvent call.job.fd call.job.event ⟨scheduler, name, true⟩ none) s.io with
  | error fault =>
    rw [htable] at hstep
    cases hstep
  | ok result =>
    obtain ⟨outcome, io⟩ := result
    rw [htable] at hstep
    cases hstep
    by_cases hret : outcome.ret ≠ 0
    · simp only [if_pos hret]
      refine ⟨hs.timers.same (sameTimers_update hcall rfl hheld.symm),
        hs.waits.register hcall htable hrunning rfl fun hzero ↦ absurd hzero hret,
        hs.tasks.same (sameJobs_update hcall rfl), hs.calls_update ?_⟩
      refine ⟨hbefore.begun, hbefore.flagged, ?_, nofun⟩
      intro timer' errno' hfailed
      cases hfailed
      exact herrno
    · simp only [if_neg hret]
      exact ⟨hs.timers.same (sameTimers_update hcall rfl hheld.symm),
        hs.waits.register hcall htable hrunning rfl fun _ ↦ ⟨timer, rfl⟩,
        hs.tasks.same (sameJobs_update hcall rfl),
        hs.calls_update ⟨hbefore.begun, hbefore.flagged, nofun, nofun⟩⟩

/-- A call cancels its timer and goes on without it. -/
theorem Sound.disarm (hs : s.Sound) (hcall : s.calls name = some call) {phase : Phase}
    (hphase : call.phase = phase) (hrunning : ∀ timer, phase ≠ .suspended timer)
    {timer : Option Address} (hheld : phase.timer = timer) (hjob : changed.job = call.job)
    (hnone : changed.phase.timer = none) (hsound : changed.Sound s.clock)
    (hstep : s.disarm timer = .ok after) : (after.setCall name changed).Sound := by
  subst hphase
  cases timer with
  | none =>
    cases hstep
    exact hs.update hcall rfl hrunning hjob (hnone.trans hheld.symm) hsound
  | some address =>
    unfold Loop.disarm at hstep
    cases hcancel : s.timers.cancel address with
    | error fault =>
      simp only [hcancel] at hstep
      cases hstep
    | ok result =>
      obtain ⟨done, cancelled⟩ := result
      simp only [hcancel] at hstep
      cases hstep
      exact ⟨hs.timers.disarm hcall hheld hcancel hnone,
        hs.waits.update hcall hjob fun timer hthere ↦ absurd hthere (hrunning timer),
        hs.tasks.same (sameJobs_update hcall hjob), hs.calls_update hsound⟩

/-- A call tests whether it has timed out. -/
theorem Sound.check (hs : s.Sound) (hcall : s.calls name = some call)
    (hphase : call.phase = .resumed) : (s.check name call).Sound := by
  have hbefore := hs.calls name call hcall
  unfold Loop.check
  cases hcancelled : call.cancelled with
  | false => exact hs.update hcall hphase nofun rfl rfl ⟨hbefore.begun, nofun, nofun, nofun⟩
  | true =>
    have hdue := hbefore.flagged hcancelled
    refine hs.update hcall hphase nofun rfl rfl ⟨hbefore.begun, fun _ ↦ hdue, nofun, ?_⟩
    intro value errno exit finished hreturned
    cases hreturned
    exact hdue

theorem Sound.expire (hs : s.Sound) {probe : Address} (hprobe : probe ∉ s.timers.live) :
    (s.expire probe).Sound where
  timers := hs.timers.expire probe s.clock
  waits := hs.waits
  tasks := hs.tasks.expire hs.timers hprobe
  calls := hs.calls

theorem alive_some (halive : s.alive name = some call) : s.calls name = some call :=
  (Option.filter_eq_some_iff.mp halive).1

/-- Assumes: the callback is not that of a call, or that of a call that is due. -/
theorem Sound.runBody (hs : s.Sound) {body : Body}
    (hdue : ∀ name fd event, body = .timeout name fd event →
      ∃ call, s.calls name = some call ∧ call.job.due ≤ s.clock.toNat) :
    (s.runBody body).Sound := by
  cases body with
  | other number => exact hs
  | timeout name fd event =>
    rw [Loop.runBody]
    cases halive : s.alive name with
    | none => exact hs
    | some call =>
      have hcall := alive_some halive
      have hbefore := hs.calls name call hcall
      by_cases hmarked : call.cancelled = false
      · simp only [if_pos hmarked]
        obtain ⟨found, hfound, htime⟩ := hdue name fd event rfl
        cases hcall.symm.trans hfound
        exact ⟨hs.timers.same (sameTimers_update hcall rfl rfl),
          hs.waits.update hcall rfl fun timer hthere ↦ ⟨timer, hthere⟩,
          hs.tasks.same (sameJobs_update hcall rfl),
          hs.calls_update ⟨hbefore.begun, fun _ ↦ htime, hbefore.failed, hbefore.returned⟩⟩
      · simp only [if_neg hmarked]
        exact hs

/-- Assumes: a task whose lambda finds its own parameters. -/
theorem Sound.runTask (hs : s.Sound) {task : Callback Body Weak}
    {found : Option (Option Body × Weak)}
    (hdue : ∀ name fd event, bodyOf task = some (.timeout name fd event) →
      ∃ call, s.calls name = some call ∧ call.job.due ≤ s.clock.toNat)
    (hfound : ∀ cb cond, task = .conditional cb cond → found = some (cb, cond))
    (hstep : s.runTask found task = .ok after) : after.Sound := by
  cases task with
  | given cb =>
    cases hstep
    refine hs.runBody ?_
    rintro name fd event rfl
    exact hdue name fd event rfl
  | conditional cb cond =>
    rw [hfound cb cond rfl] at hstep
    unfold Loop.runTask at hstep
    simp only at hstep
    split_ifs at hstep
    · cases cb with
      | none => cases hstep
      | some body =>
        cases hstep
        refine hs.runBody ?_
        rintro name fd event rfl
        exact hdue name fd event rfl
    · cases hstep
      exact hs

/-- An action on the event table wakes calls. -/
theorem Sound.onTable (hs : s.Sound) {action : Scheduler.Action}
    (hforeign : ∀ fd event caller, action = .addEvent fd event caller none →
      s.calls caller.fiber = none)
    (hstep : s.onTable ctl action = .ok after) : after.Sound := by
  unfold Loop.onTable at hstep
  cases htable : IOManager.step ctl action s.io with
  | error fault =>
    rw [htable] at hstep
    cases hstep
  | ok result =>
    obtain ⟨outcome, io⟩ := result
    rw [htable] at hstep
    cases hstep
    refine ⟨hs.timers.same (sameTimers_wake _ _), hs.waits.onTable hforeign htable,
      hs.tasks.same (sameTimers_wake _ _).sameJobs, ?_⟩
    intro name found hfound
    obtain ⟨call, hcall, rfl⟩ := Option.map_eq_some_iff.mp hfound
    have hbefore := hs.calls name call hcall
    unfold wake
    cases hphase : call.phase with
    | suspended timer =>
      simp only
      split_ifs
      · exact ⟨hbefore.begun, hbefore.flagged, nofun, nofun⟩
      · exact hbefore
    | _ => exact hbefore

/-- An operation of other code on its timers. -/
theorem Sound.onTimers (hs : s.Sound) {action : Timers.Action Body Weak}
    (hforeign : s.Foreign action) (hstep : s.onTimers action = .ok after) : after.Sound := by
  obtain ⟨hguard, ⟨address, htarget, howner⟩, hstored⟩ := hforeign
  unfold Loop.onTimers at hstep
  cases htimers : TimerManager.step action s.timers with
  | error fault =>
    rw [htimers] at hstep
    cases hstep
  | ok result =>
    obtain ⟨outcome, timers⟩ := result
    rw [htimers] at hstep
    simp only [htarget] at hstep
    cases hstep
    exact ⟨hs.timers.foreign hguard htarget howner hstored htimers, hs.waits, hs.tasks, hs.calls⟩

/-- A step of a call, taken apart. -/
theorem withCall_cases {body : IoCall → Except Fault (Loop κ)}
    (hstep : s.withCall name body = .ok after) :
    ∃ call, s.calls name = some call ∧ body call = .ok after := by
  unfold withCall at hstep
  cases hcall : s.calls name with
  | none =>
    rw [hcall] at hstep
    cases hstep
  | some call =>
    rw [hcall] at hstep
    exact ⟨call, rfl, hstep⟩

/-- A step that changes what an operation returns. -/
theorem map_eq_ok {α β : Type} {result : Except Fault α} {f : α → β} {value : β}
    (hmap : result.map f = .ok value) : ∃ found, result = .ok found ∧ f found = value := by
  cases result with
  | error fault => cases hmap
  | ok found =>
    cases hmap
    exact ⟨found, rfl, rfl⟩

/-! The steps of a call, each from one phase. -/

theorem next_original {value errno : ℤ}
    (hstep : s.next ctl (.original name value errno) = .ok after) :
    ∃ call, s.calls name = some call ∧ call.phase = .calling ∧
      s.original name call value errno = after := by
  obtain ⟨call, hcall, hbody⟩ := withCall_cases hstep
  refine ⟨call, hcall, ?_⟩
  cases hphase : call.phase with
  | calling =>
    simp only [hphase] at hbody
    exact ⟨rfl, Except.ok.inj hbody⟩
  | _ =>
    simp only [hphase] at hbody
    cases hbody

theorem next_arm {address : Address} (hstep : s.next ctl (.arm name address) = .ok after) :
    ∃ call, s.calls name = some call ∧ call.phase = .refused ∧ s.arm name call address = after := by
  obtain ⟨call, hcall, hbody⟩ := withCall_cases hstep
  refine ⟨call, hcall, ?_⟩
  cases hphase : call.phase with
  | refused =>
    simp only [hphase] at hbody
    exact ⟨rfl, Except.ok.inj hbody⟩
  | _ =>
    simp only [hphase] at hbody
    cases hbody

theorem next_register {scheduler : Option ℕ} {errno : ℤ}
    (hstep : s.next ctl (.register name scheduler errno) = .ok after) :
    ∃ call, s.calls name = some call ∧ ∃ timer, call.phase = .armed timer ∧
      s.register ctl name call timer scheduler errno = .ok after := by
  obtain ⟨call, hcall, hbody⟩ := withCall_cases hstep
  refine ⟨call, hcall, ?_⟩
  cases hphase : call.phase with
  | armed timer =>
    simp only [hphase] at hbody
    exact ⟨timer, rfl, hbody⟩
  | _ =>
    simp only [hphase] at hbody
    cases hbody

theorem next_giveUp (hstep : s.next ctl (.giveUp name) = .ok after) :
    ∃ call, s.calls name = some call ∧ ∃ timer errno, call.phase = .failed timer errno ∧
      ∃ middle, s.disarm timer = .ok middle ∧ middle.setCall name
        { call with phase := .returned (-1) errno .addEventFailed s.clock } = after := by
  obtain ⟨call, hcall, hbody⟩ := withCall_cases hstep
  refine ⟨call, hcall, ?_⟩
  cases hphase : call.phase with
  | failed timer errno =>
    simp only [hphase] at hbody
    exact ⟨timer, errno, rfl, map_eq_ok hbody⟩
  | _ =>
    simp only [hphase] at hbody
    cases hbody

theorem next_resume (hstep : s.next ctl (.resume name) = .ok after) :
    ∃ call, s.calls name = some call ∧ ∃ timer, call.phase = .woken timer ∧
      ∃ middle, s.disarm timer = .ok middle ∧
        middle.setCall name { call with phase := .resumed } = after := by
  obtain ⟨call, hcall, hbody⟩ := withCall_cases hstep
  refine ⟨call, hcall, ?_⟩
  cases hphase : call.phase with
  | woken timer =>
    simp only [hphase] at hbody
    exact ⟨timer, rfl, map_eq_ok hbody⟩
  | _ =>
    simp only [hphase] at hbody
    cases hbody

theorem next_check (hstep : s.next ctl (.check name) = .ok after) :
    ∃ call, s.calls name = some call ∧ call.phase = .resumed ∧ s.check name call = after := by
  obtain ⟨call, hcall, hbody⟩ := withCall_cases hstep
  refine ⟨call, hcall, ?_⟩
  cases hphase : call.phase with
  | resumed =>
    simp only [hphase] at hbody
    exact ⟨rfl, Except.ok.inj hbody⟩
  | _ =>
    simp only [hphase] at hbody
    cases hbody

/-- Every step that can be made keeps the loop sound. -/
theorem Sound.next (hs : s.Sound) {action : Action} (hallowed : s.Allowed action)
    (hstep : s.next ctl action = .ok after) : after.Sound := by
  cases action with
  | tick now =>
    cases hstep
    exact hs.tick hallowed
  | enter name fd event timeout =>
    cases hstep
    exact hs.enter fd event timeout hallowed.1 hallowed.2
  | original name value errno =>
    obtain ⟨call, hcall, hphase, rfl⟩ := next_original hstep
    exact hs.original hcall hphase value errno
  | arm name address =>
    obtain ⟨call, hcall, hphase, rfl⟩ := next_arm hstep
    exact hs.arm hcall hphase hallowed.1 (hallowed.2 call hcall)
  | register name scheduler errno =>
    obtain ⟨call, hcall, timer, hphase, hregister⟩ := next_register hstep
    exact hs.register hcall hphase hallowed hregister
  | giveUp name =>
    obtain ⟨call, hcall, timer, errno, hphase, middle, hdisarm, rfl⟩ := next_giveUp hstep
    have hbefore := hs.calls name call hcall
    refine hs.disarm hcall hphase nofun rfl rfl rfl ?_ hdisarm
    refine ⟨hbefore.begun, hbefore.flagged, nofun, ?_⟩
    intro value errno' exit finished hreturned
    cases hreturned
    exact hbefore.failed timer errno hphase
  | resume name =>
    obtain ⟨call, hcall, timer, hphase, middle, hdisarm, rfl⟩ := next_resume hstep
    have hbefore := hs.calls name call hcall
    exact hs.disarm hcall hphase nofun rfl rfl rfl
      ⟨hbefore.begun, hbefore.flagged, nofun, nofun⟩ hdisarm
  | check name =>
    obtain ⟨call, hcall, hphase, rfl⟩ := next_check hstep
    exact hs.check hcall hphase
  | expire probe =>
    cases hstep
    exact hs.expire hallowed
  | runTask position found =>
    rw [Loop.next] at hstep
    cases htask : s.tasks[position]? with
    | none =>
      simp only [htask] at hstep
      cases hstep
    | some task =>
      simp only [htask] at hstep
      have hrest : { s with tasks := s.tasks.eraseIdx position }.Sound :=
        ⟨hs.timers, hs.waits, hs.tasks.erase position, hs.calls⟩
      refine hrest.runTask ?_ ?_ hstep
      · exact hs.tasks task (List.mem_of_getElem? htask)
      · rintro cb cond rfl
        exact hallowed cb cond htask
  | runCancel position =>
    rw [Loop.next] at hstep
    cases hcancel : s.cancels[position]? with
    | none =>
      simp only [hcancel] at hstep
      cases hstep
    | some target =>
      simp only [hcancel] at hstep
      have hrest : { s with cancels := s.cancels.eraseIdx position }.Sound :=
        ⟨hs.timers, hs.waits, hs.tasks, hs.calls⟩
      refine hrest.onTable ?_ hstep
      intro fd event caller haction
      cases haction
  | events action => exact hs.onTable hallowed hstep
  | timers action => exact hs.onTimers hallowed hstep

/-- No call has been made. -/
theorem sound_init (kernel : κ) : (init kernel).Sound := by
  have hnone : ∀ name call, (init kernel).calls name ≠ some call :=
    fun _ _ hcall ↦ Option.some_ne_none _ hcall.symm
  refine ⟨⟨TimerManager.consistent_init, ?_, ?_, ?_⟩, ?_, ?_, ?_⟩
  · intro address _ cb hcb
    cases hcb
  · intro address hmem
    exact absurd hmem List.not_mem_nil
  · intro name call address hcall
    exact absurd hcall (hnone name call)
  · intro name call fd event hcall
    exact absurd hcall (hnone name call)
  · intro task hmem
    exact absurd hmem List.not_mem_nil
  · intro name call hcall
    exact absurd hcall (hnone name call)

/-- Every state that a run reaches is sound. -/
theorem sound_of_run (kernel : κ) {trace : List (Action × Unit)} {final : Loop κ}
    (hrun : Run (step ctl) Allowed (init kernel) trace final) : final.Sound := by
  let reached : List (Action × Unit) → Loop κ → Prop := fun _ now ↦ now.Sound
  have hstart : reached [] (init kernel) := sound_init kernel
  refine hrun.history_invariant hstart ?_
  intro trace now action output after hnow hallowed hstep
  obtain ⟨found, hnext, hfound⟩ := map_eq_ok hstep
  cases hfound
  exact Sound.next hnow hallowed hnext

/-- Assumes: a run of calls, timers, reports and other code in which the lambda of `addTimer` always
finds its own parameters, and a call that has returned. Its result is that of the last call of the
original function, and not one of EINTR or EAGAIN, unless the call has timed out or `addEvent` has
failed. It fails with ETIMEDOUT only when its time is up or the original function has failed so. No
timer of the call is in the set, and the call does not wait for its event. -/
theorem returned_call_is_clean (kernel : κ) {trace : List (Action × Unit)} {final : Loop κ}
    (hrun : Run (step ctl) Allowed (init kernel) trace final) {name : ℕ} {call : IoCall}
    (hcall : final.calls name = some call) {value errno : ℤ} {exit : Exit} {finished : UInt64}
    (hreturned : call.phase = .returned value errno exit finished) :
    (exit = .timedOut ∨ exit = .addEventFailed ∨
      call.last = some (value, errno) ∧ ¬ Retried value errno) ∧
    (value = -1 → errno = etimedout →
      call.job.began.toNat + call.job.timeout.toNat ≤ finished.toNat ∨
        call.last = some (-1, etimedout)) ∧
    (∀ address ∈ final.timers.timers, final.owner address ≠ some name) ∧
    (final.io.context call.job.fd).waiting call.job.event ≠ some (.fiber name) := by
  have hfinal := sound_of_run kernel hrun
  have hjustified := (hfinal.calls name call hcall).returned value errno exit finished hreturned
  refine ⟨?_, ?_, ?_, ?_⟩
  · cases exit with
    | passed => exact Or.inr (Or.inr hjustified)
    | timedOut => exact Or.inl rfl
    | addEventFailed => exact Or.inr (Or.inl rfl)
  · rintro rfl rfl
    cases exit with
    | passed => exact Or.inr hjustified.1
    | timedOut => exact Or.inl hjustified
    | addEventFailed => exact absurd rfl hjustified
  · intro address hmem howner
    obtain ⟨found, hfound, hheld, -⟩ := hfinal.timers.kept address hmem name howner
    cases hcall.symm.trans hfound
    rw [hreturned] at hheld
    cases hheld
  · intro hwaiting
    obtain ⟨⟨timer, hsuspended⟩, -⟩ := hfinal.waits name call _ _ hcall hwaiting
    cases hreturned.symm.trans hsuspended

/-- Nobody waits at the start. -/
theorem nobody_waits (name : ℕ) (fd : Fd) (event : Event) :
    ((init ()).io.context fd).waiting event ≠ some (.fiber name) := by
  cases event with
  | none => exact nofun
  | read => exact nofun
  | write => exact nofun

/-- A call with a timeout of 10 ms waits, its timer expires after 10 ms, and it times out. -/
theorem returned_call_is_clean_timeout :
    ∃ trace final call, Run (step Scheduler.willingCtl) Allowed (init ()) trace final ∧
      final.calls 0 = some call ∧ call.phase = .returned (-1) etimedout .timedOut 10 ∧
      (∀ address ∈ final.timers.timers, final.owner address ≠ some 0) ∧
      (final.io.context call.job.fd).waiting call.job.event ≠ some (.fiber 0) := by
  have hstart : Run (step Scheduler.willingCtl) Allowed (init ()) [] (init ()) := Run.nil
  have hentered := hstart.snoc
    (show Allowed (init ()) (.enter 0 5 .read 10) from ⟨rfl, nobody_waits 0⟩)
    (show step Scheduler.willingCtl _ _ = .ok (_, _) from rfl)
  have hrefused := hentered.snoc (show Allowed _ (.original 0 (-1) eagain) from trivial)
    (show step Scheduler.willingCtl _ _ = .ok (_, _) from rfl)
  have hfits : ∀ call, some call = some (⟨⟨5, .read, 10, 0⟩, .refused, false,
      some (-1, eagain)⟩ : IoCall) → call.job.timeout ≠ 0xffffffffffffffff →
        (0 : UInt64).toNat + call.job.timeout.toNat < 2 ^ 64 := by
    rintro call hcall -
    cases hcall
    decide
  have harmed := hrefused.snoc
    (show Allowed _ (.arm 0 1) from ⟨List.not_mem_nil, fun call hcall ↦ hfits call hcall.symm⟩)
    (show step Scheduler.willingCtl _ _ = .ok (_, _) from rfl)
  have hwaits := harmed.snoc (show Allowed _ (.register 0 (some 0) 1) from
      (show (1 : ℤ) ≠ etimedout by decide))
    (show step Scheduler.willingCtl _ _ = .ok (_, _) from rfl)
  have hlater := hwaits.snoc (show Allowed _ (.tick 10) from
      (show (0 : UInt64) ≤ 10 by decide))
    (show step Scheduler.willingCtl _ _ = .ok (_, _) from rfl)
  have hexpired := hlater.snoc
    (show Allowed _ (.expire 2) from (show (2 : Address) ∉ [1] by decide))
    (show step Scheduler.willingCtl _ _ = .ok (_, _) from rfl)
  have hmarked := hexpired.snoc
    (show Allowed _ (.runTask 0 (some (some (.timeout 0 5 .read), .timeInfo 0))) from
      fun cb cond htask ↦ by cases htask; rfl)
    (show step Scheduler.willingCtl _ _ = .ok (_, _) from rfl)
  have hcancelled := hmarked.snoc (show Allowed _ (.runCancel 0) from trivial)
    (show step Scheduler.willingCtl _ _ = .ok (_, _) from rfl)
  have hresumed := hcancelled.snoc (show Allowed _ (.resume 0) from trivial)
    (show step Scheduler.willingCtl _ _ = .ok (_, _) from rfl)
  have hreturned := hresumed.snoc (show Allowed _ (.check 0) from trivial)
    (show step Scheduler.willingCtl _ _ = .ok (_, _) from rfl)
  refine ⟨_, _, ⟨⟨5, .read, 10, 0⟩, .returned (-1) etimedout .timedOut 10, true,
    some (-1, eagain)⟩, hreturned, rfl, rfl, ?_⟩
  exact (returned_call_is_clean () hreturned rfl rfl).2.2

/-- The original function fails with ETIMEDOUT at once, and the call with a timeout of 1000 ms
returns that. -/
theorem original_timeout_is_passed_on :
    ∃ trace final call, Run (step Scheduler.willingCtl) Allowed (init ()) trace final ∧
      final.calls 0 = some call ∧ call.phase = .returned (-1) etimedout .passed 0 ∧
      call.job.timeout = 1000 ∧
      ¬ call.job.began.toNat + call.job.timeout.toNat ≤ (0 : UInt64).toNat := by
  have hstart : Run (step Scheduler.willingCtl) Allowed (init ()) [] (init ()) := Run.nil
  have hentered := hstart.snoc
    (show Allowed (init ()) (.enter 0 5 .read 1000) from ⟨rfl, nobody_waits 0⟩)
    (show step Scheduler.willingCtl _ _ = .ok (_, _) from rfl)
  have hreturned := hentered.snoc (show Allowed _ (.original 0 (-1) etimedout) from trivial)
    (show step Scheduler.willingCtl _ _ = .ok (_, _) from rfl)
  exact ⟨_, _, _, hreturned, rfl, rfl, rfl, by decide⟩

end Loop

end Cczoe.Hook.Blocking
