import Cczoe.Scheduler.EventTableLaws

/-!
# All or nothing in the event table

`addEvent`, `delEvent`, `cancelEvent` and `cancelAll` leave through several exits: no context, no
such event, a call of `epoll_ctl` that fails, and the end. The last one returns `0`, all others
return `1`.

`call_atomic` says what each exit leaves, whatever `epoll_ctl` answers. After a `1` the count, the
contexts and the task lists of the schedulers are as they were, apart from fresh contexts behind the
old ones (`Unchanged`). After a `0` one context is different, and in it exactly the events the call
names; the count moves by their number, and a cancelling call hands over the task of each of them,
READ first (`Performed`).
-/

set_option autoImplicit false
set_option relaxedAutoImplicit false

namespace Cczoe.Scheduler

/-! ### What a call is about -/

namespace Action

/-- One of the four operations, for READ or WRITE where it takes an event. -/
def IsCall : Action → Prop
  | addEvent _ event _ _ | delEvent _ event | cancelEvent _ event => event ≠ .none
  | cancelAll _ => True
  | report _ _ => False

/-- The events a call names in a context: its own one, for `cancelAll` all that are registered. -/
def named (events : Events) : Action → Events
  | addEvent _ event _ _ | delEvent _ event | cancelEvent _ event => Events.empty.insert event
  | cancelAll _ | report _ _ => events

/-- Whether a call registers what it names, or takes it out. -/
def registers : Action → Bool
  | addEvent _ _ _ _ => true
  | delEvent _ _ | cancelEvent _ _ | cancelAll _ | report _ _ => false

/-- Whether a call hands over the tasks of the events it takes out. -/
def handsOver : Action → Bool
  | cancelEvent _ _ | cancelAll _ | report _ _ => true
  | addEvent _ _ _ _ | delEvent _ _ => false

/-- The event context that a call stores in place of another. -/
def stored (eventCtx : EventContext) : Action → EventContext
  | addEvent _ _ caller cb => Locked.supplied eventCtx caller cb
  | delEvent _ _ => {}
  | cancelEvent _ _ | cancelAll _ | report _ _ => { eventCtx with scheduler := none }

/-- The task of an event that a call hands to a scheduler, if it does. -/
def handedFor (ctx : FdContext) (action : Action) (scheduler : ℕ) (event : Event) : Option Task :=
  if action.handsOver = true ∧ (action.named ctx.events).has event = true ∧
      (ctx.slot event).scheduler = some scheduler then (ctx.slot event).task
  else none

/-- The tasks a call hands to a scheduler out of a context. -/
def handed (ctx : FdContext) (action : Action) (scheduler : ℕ) : List Task :=
  (action.handedFor ctx scheduler .read).toList ++ (action.handedFor ctx scheduler .write).toList

end Action

/-- The task that a call of `triggerEvent` hands to a scheduler, if it does. -/
def Trigger.taskFor (scheduler : ℕ) (trigger : Trigger) : Option Task :=
  if trigger.scheduler = some scheduler then trigger.task else none

/-- The tasks that an action appends to the task list of a scheduler. -/
def Outcome.scheduled (outcome : Outcome) (scheduler : ℕ) : List Task :=
  outcome.triggers.filterMap (Trigger.taskFor scheduler)

/-- The task lists of the schedulers after an action. -/
def Outcome.tasksAfter (outcome : Outcome) (tasks : ℕ → List Task) (scheduler : ℕ) : List Task :=
  tasks scheduler ++ outcome.scheduled scheduler

/-- The events a call names in a context are flipped and their event contexts replaced. Everything
else in the context is as it was. -/
structure FdContext.Flipped (action : Action) (ctx after : FdContext) : Prop where
  flips : ∀ event, (action.named ctx.events).has event = true →
    ctx.events.has event = !action.registers ∧ after.events.has event = action.registers ∧
      after.slot event = action.stored (ctx.slot event)
  keeps : ∀ event, (action.named ctx.events).has event = false →
    after.events.has event = ctx.events.has event ∧ after.slot event = ctx.slot event

/-- The count after a call that did what it is for. -/
def Action.counted (events : Events) (pending : UInt64) (action : Action) : UInt64 :=
  if action.registers then pending + UInt64.ofNat (action.named events).count
  else pending - UInt64.ofNat (action.named events).count

/-- A call has changed nothing, apart from fresh contexts behind the old ones. -/
structure Unchanged {κ : Type} (io next : IOManager κ) (outcome : Outcome) : Prop where
  pending_eq : next.pending = io.pending
  contexts_eq : ∃ count, next.contexts = io.contexts ++ List.replicate count FdContext.fresh
  tasks_eq : ∀ tasks, outcome.tasksAfter tasks = tasks

/-- A call has flipped what it names in the context of its descriptor, has counted it, and has
handed over the tasks it is to hand over. -/
structure Performed {κ : Type} (action : Action) (io next : IOManager κ) (outcome : Outcome) :
    Prop where
  flipped : FdContext.Flipped action (io.context action.fd) (next.context action.fd)
  pending_eq : next.pending = action.counted (io.context action.fd).events io.pending
  contexts_eq : ∃ count, next.contexts =
    (io.contexts ++ List.replicate count FdContext.fresh).set action.fd (next.context action.fd)
  context_other : ∀ other : Fd, other ≠ action.fd → next.context other = io.context other
  tasks_eq : ∀ tasks scheduler, outcome.tasksAfter tasks scheduler =
    tasks scheduler ++ action.handed (io.context action.fd) scheduler

/-! ### Under the mutex -/

namespace FdContext

variable {action : Action} {event : Event} {ctx after : FdContext}

theorem has_single_iff (other : Event) :
    (Events.empty.insert event).has other = true ↔ other = event ∧ event ≠ .none := by
  cases event <;> cases other <;> decide

/-- Assumes: the action names one event. That event is flipped, and the other one is kept. -/
theorem Flipped.of_single (hnamed : action.named ctx.events = Events.empty.insert event)
    (hbefore : ctx.events.has event = !action.registers)
    (hafter : after.events.has event = action.registers)
    (hslot : after.slot event = action.stored (ctx.slot event)) (hevent : event ≠ .none)
    (hothers : ∀ other, other ≠ event →
      after.events.has other = ctx.events.has other ∧ after.slot other = ctx.slot other) :
    Flipped action ctx after where
  flips := by
    intro other hother
    rw [hnamed, has_single_iff] at hother
    rw [hother.1]
    exact ⟨hbefore, hafter, hslot⟩
  keeps := by
    intro other hother
    refine hothers other fun heq ↦ ?_
    rw [hnamed, (has_single_iff other).mpr ⟨heq, hevent⟩] at hother
    cases hother

/-- Assumes: the action registers one event, which is not registered. -/
theorem Flipped.register (hnamed : action.named ctx.events = Events.empty.insert event)
    (hregisters : action.registers = true) (hevent : event ≠ .none)
    (hnew : ctx.events.has event = false) :
    Flipped action ctx (ctx.register event (action.stored (ctx.slot event))) := by
  refine Flipped.of_single hnamed ?_ ?_ (slot_register_self hevent _ _) hevent ?_
  · rw [hnew, hregisters]
    rfl
  · rw [events_register, Events.has_insert_self hevent, hregisters]
  · intro other hne
    rw [events_register]
    exact ⟨Events.has_insert_of_ne hne _, slot_register_of_ne hne _ _⟩

/-- Assumes: the action takes one event out, which is registered. -/
theorem Flipped.release (hnamed : action.named ctx.events = Events.empty.insert event)
    (hregisters : action.registers = false) (hevent : event ≠ .none)
    (hold : ctx.events.has event = true) :
    Flipped action ctx (ctx.release event (action.stored (ctx.slot event))) := by
  refine Flipped.of_single hnamed ?_ ?_ (slot_release_self hevent _ _) hevent ?_
  · rw [hold, hregisters]
    rfl
  · rw [events_release, Events.has_remove_self, hregisters]
  · intro other hne
    rw [events_release]
    exact ⟨Events.has_remove_of_ne hne _, slot_release_of_ne hne _ _⟩

/-- `cancelAll` takes out the events that are registered. -/
theorem Flipped.cancelAll (fd : Fd) (ctx : FdContext) :
    Flipped (.cancelAll fd) ctx (Locked.triggered ctx.events.write .write
      (Locked.triggered ctx.events.read .read ctx)) := by
  obtain ⟨⟨read, write⟩, readCtx, writeCtx⟩ := ctx
  constructor
  · intro event hnamed
    cases event with
    | none => cases hnamed
    | read =>
      obtain rfl : read = true := hnamed
      cases write <;> exact ⟨rfl, rfl, rfl⟩
    | write =>
      obtain rfl : write = true := hnamed
      cases read <;> exact ⟨rfl, rfl, rfl⟩
  · intro event hnamed
    cases event with
    | none => exact ⟨rfl, rfl⟩
    | read =>
      obtain rfl : read = false := hnamed
      cases write <;> exact ⟨rfl, rfl⟩
    | write =>
      obtain rfl : write = false := hnamed
      cases read <;> exact ⟨rfl, rfl⟩

end FdContext

namespace Locked

variable {κ : Type} {ctl : κ → CtlOp → Fd → Events → Bool × κ} {s after : Locked κ}
  {outcome : Outcome}

/-- What a call under the mutex that returns has done: nothing to the context, the count and the
task lists, or all it is for. -/
inductive AllOrNothing (action : Action) (s after : Locked κ) (outcome : Outcome) : Prop
  | nothing (ret_eq : outcome.ret = 1) (ctx_eq : after.ctx = s.ctx)
      (pending_eq : after.pending = s.pending) (triggers_eq : outcome.triggers = [])
  | all (ret_eq : outcome.ret = 0) (flipped : FdContext.Flipped action s.ctx after.ctx)
      (pending_eq : after.pending = action.counted s.ctx.events s.pending)
      (scheduled_eq : ∀ scheduler, outcome.scheduled scheduler = action.handed s.ctx scheduler)

/-- Assumes: an action that takes one event out and triggers it or nothing, as it is to. -/
theorem AllOrNothing.of_released {action : Action} {event : Event} {fd : Fd}
    {triggers : List Trigger}
    (hreleased : Released ctl fd event s triggers (action.stored (s.ctx.slot event)) outcome after)
    (hnamed : action.named s.ctx.events = Events.empty.insert event)
    (hregisters : action.registers = false) (hevent : event ≠ .none)
    (hhanded : ∀ scheduler, triggers.filterMap (Trigger.taskFor scheduler) =
      action.handed s.ctx scheduler) : AllOrNothing action s after outcome := by
  have hcount : (Events.empty.insert event).count = 1 :=
    Events.count_insert hevent (by cases event <;> rfl)
  rcases hreleased.cases with ⟨-, hret, -, hnone, rfl⟩ |
    ⟨hhas, ok, kernel, -, -, ⟨-, hret, htriggers, rfl⟩ | ⟨-, hret, hnone, rfl⟩⟩
  · exact .nothing hret rfl rfl hnone
  · refine .all hret (FdContext.Flipped.release hnamed hregisters hevent hhas) ?_ ?_
    · rw [Action.counted, hregisters, hnamed, hcount]
      rfl
    · intro scheduler
      rw [Outcome.scheduled, htriggers, hhanded]
  · exact .nothing hret rfl rfl hnone

theorem filterMap_single (trigger : Trigger) (scheduler : ℕ) :
    [trigger].filterMap (Trigger.taskFor scheduler) = (trigger.taskFor scheduler).toList := by
  cases htask : trigger.taskFor scheduler <;> simp [htask]

section HandedFor

variable (action : Action) {ctx : FdContext} {event : Event}

theorem handedFor_of_not_named (hnamed : (action.named ctx.events).has event = false)
    (scheduler : ℕ) : action.handedFor ctx scheduler event = none := by
  simp [Action.handedFor, hnamed]

/-- Assumes: a cancelling call that names the event. It hands over what `triggerEvent` does. -/
theorem handedFor_of_named (hhandsOver : action.handsOver = true)
    (hnamed : (action.named ctx.events).has event = true) (events : Events) (scheduler : ℕ) :
    Trigger.taskFor scheduler ⟨event, events, (ctx.slot event).scheduler, (ctx.slot event).task⟩ =
      action.handedFor ctx scheduler event := by
  simp only [Action.handedFor, Trigger.taskFor, hhandsOver, hnamed, true_and]

end HandedFor

/-- An event that `cancelAll` finds registered is triggered, and no other. -/
theorem filterMap_triggersOf (fd : Fd) (ctx : FdContext) (event : Event) (scheduler : ℕ) :
    (triggersOf (ctx.events.has event) event ctx).filterMap (Trigger.taskFor scheduler) =
      ((Action.cancelAll fd).handedFor ctx scheduler event).toList := by
  cases hhas : ctx.events.has event with
  | false =>
    rw [handedFor_of_not_named (.cancelAll fd) hhas]
    rfl
  | true =>
    rw [← handedFor_of_named (.cancelAll fd) rfl hhas ctx.events, ← filterMap_single]
    rfl

/-- `cancelAll` hands over the tasks of the registered events. -/
theorem filterMap_cancelAll (fd : Fd) (ctx : FdContext) (scheduler : ℕ) :
    (triggersOf ctx.events.read .read ctx ++ triggersOf ctx.events.write .write
      (triggered ctx.events.read .read ctx)).filterMap (Trigger.taskFor scheduler) =
      (Action.cancelAll fd).handed ctx scheduler := by
  have hwrite : (triggersOf ctx.events.write .write
        (triggered ctx.events.read .read ctx)).filterMap (Trigger.taskFor scheduler) =
      (triggersOf ctx.events.write .write ctx).filterMap (Trigger.taskFor scheduler) := by
    cases hdue : ctx.events.write with
    | false => rfl
    | true =>
      simp only [triggersOf, slot_write_triggered, filterMap_single, Trigger.taskFor, if_true]
  rw [List.filterMap_append, hwrite]
  exact congrArg₂ (· ++ ·) (filterMap_triggersOf fd ctx .read scheduler)
    (filterMap_triggersOf fd ctx .write scheduler)

/-- What each of the four operations does under the mutex. -/
theorem step_allOrNothing {action : Action} (hcall : action.IsCall)
    (hstep : step ctl action s = .ok (outcome, after)) :
    AllOrNothing action s after outcome := by
  cases action with
  | addEvent fd event caller cb =>
    obtain ⟨hnew, op, ok, kernel, -, -, rfl, ⟨rfl, hevent, rfl⟩ | ⟨rfl, rfl⟩⟩ :=
      addEvent_cases hstep
    · refine .all rfl (FdContext.Flipped.register rfl rfl hevent hnew) ?_ fun _ ↦ rfl
      have hcount : (Events.empty.insert event).count = 1 :=
        Events.count_insert hevent (by cases event <;> rfl)
      rw [Action.counted, Action.named, hcount]
      rfl
    · exact .nothing rfl rfl rfl rfl
  | delEvent fd event =>
    exact .of_released (delEvent_cases hstep) rfl rfl hcall fun _ ↦ rfl
  | cancelEvent fd event =>
    refine .of_released (cancelEvent_cases hstep) rfl rfl hcall fun scheduler ↦ ?_
    have hself : (Action.named s.ctx.events (.cancelEvent fd event)).has event = true :=
      (FdContext.has_single_iff event).mpr ⟨rfl, hcall⟩
    rw [filterMap_single, handedFor_of_named (.cancelEvent fd event) rfl hself]
    cases event with
    | none => exact absurd rfl hcall
    | read =>
      have hother : (Action.cancelEvent fd .read).handedFor s.ctx scheduler .write = none :=
        handedFor_of_not_named _ rfl scheduler
      rw [Action.handed, hother]
      exact (List.append_nil _).symm
    | write => rfl
  | cancelAll fd =>
    obtain ⟨hret, -, ⟨-, hctls, hnone, rfl⟩ |
      ⟨-, ok, kernel, -, hctls, ⟨rfl, hswept, -⟩ | ⟨rfl, hnone, rfl⟩⟩⟩ := cancelAll_outcome hstep
    · rw [hctls] at hret
      exact .nothing hret rfl rfl hnone
    · rw [hctls] at hret
      refine .all hret ?_ ?_ fun scheduler ↦ ?_
      · rw [hswept.ctx_eq]
        exact FdContext.Flipped.cancelAll fd s.ctx
      · rw [hswept.pending_eq]
        have hcount : UInt64.ofNat s.ctx.events.count = UInt64.ofNat s.ctx.events.read.toNat +
            UInt64.ofNat s.ctx.events.write.toNat := UInt64.ofNat_add _ _
        change _ = s.pending - UInt64.ofNat s.ctx.events.count
        rw [hcount]
        grind
      · rw [Outcome.scheduled, hswept.triggers_eq]
        exact filterMap_cancelAll fd s.ctx scheduler
    · rw [hctls] at hret
      exact .nothing hret rfl rfl hnone
  | report fd mask => exact absurd hcall id

end Locked

/-! ### The table -/

section Calls

variable {κ : Type} {ctl : κ → CtlOp → Fd → Events → Bool × κ} {io next : IOManager κ}
  {action : Action} {outcome : Outcome}

/-- An action that returns is refused, or puts what its part under the mutex leaves in the place of
its context, behind which there may be fresh ones. -/
theorem step_replaces (hstep : IOManager.step ctl action io = .ok (outcome, next)) :
    (outcome = { ret := 1 } ∧ next = io) ∨
      ∃ count after, action.fd.val < io.contexts.length + count ∧
        Locked.step ctl action ⟨io.context action.fd, io.kernel, io.pending⟩ =
          .ok (outcome, after) ∧
        IOManager.Touched io action.fd after next ∧
        next.contexts = (io.contexts ++ List.replicate count FdContext.fresh).set action.fd
          after.ctx := by
  rcases IOManager.step_forms io action with ⟨-, heq⟩ | heq | ⟨count, hlength, hfound, heq⟩
  · rw [heq] at hstep
    cases hstep
    exact Or.inl ⟨rfl, rfl⟩
  · rw [heq] at hstep
    cases hstep
  · rw [heq] at hstep
    obtain ⟨after, hlocked, htouched⟩ := IOManager.withContext_view hlength hfound hstep
    rw [IOManager.withContext_eq _ hfound, hlocked] at hstep
    cases hstep
    exact Or.inr ⟨count, after, hfound, hlocked, htouched, rfl⟩

/-- Putting a context back in its own place changes nothing. -/
theorem set_context_self {count : ℕ} {fd : Fd} (hfound : fd.val < io.contexts.length + count) :
    (io.contexts ++ List.replicate count FdContext.fresh).set fd (io.context fd) =
      io.contexts ++ List.replicate count FdContext.fresh := by
  have hbound : fd.val < (io.contexts ++ List.replicate count FdContext.fresh).length := by
    rwa [List.length_append, List.length_replicate]
  have hctx := IOManager.context_append_fresh io count fd
  rw [List.getElem?_eq_getElem hbound, Option.getD_some] at hctx
  rw [← hctx, List.set_getElem_self]

/-- Assumes: one of the four operations, for READ or WRITE, returns. It has changed nothing and
returns `1`, or has done all it is for and returns `0`. -/
theorem call_atomic (hcall : action.IsCall)
    (hstep : IOManager.step ctl action io = .ok (outcome, next)) :
    (outcome.ret = 1 ∧ Unchanged io next outcome) ∨
      (outcome.ret = 0 ∧ Performed action io next outcome) := by
  rcases step_replaces hstep with ⟨rfl, rfl⟩ | ⟨count, after, hfound, hlocked, htouched, hnext⟩
  · exact Or.inl ⟨rfl, rfl, ⟨0, (List.append_nil _).symm⟩, fun _ ↦ funext fun _ ↦ List.append_nil _⟩
  cases Locked.step_allOrNothing hcall hlocked with
  | nothing hret hctx hpending htriggers =>
    refine Or.inl ⟨hret, ?_, ⟨count, ?_⟩, fun tasks ↦ funext fun scheduler ↦ ?_⟩
    · rw [htouched.pending_eq, hpending]
    · rw [hnext, hctx]
      exact set_context_self hfound
    · rw [Outcome.tasksAfter, Outcome.scheduled, htriggers]
      exact List.append_nil _
  | all hret hflipped hpending hscheduled =>
    refine Or.inr ⟨hret, ?_, ?_, ⟨count, ?_⟩, htouched.context_other, fun tasks scheduler ↦ ?_⟩
    · rw [htouched.context_self]
      exact hflipped
    · rw [htouched.pending_eq, hpending]
    · rw [htouched.context_self, hnext]
    · rw [Outcome.tasksAfter, hscheduled]

end Calls

/-- A table in which descriptor 2 waits for READ with a fiber and for WRITE with a callback. -/
def bothRegistered : IOManager Unit where
  kernel := ()
  contexts := [FdContext.fresh, FdContext.fresh,
    ⟨⟨true, true⟩, { scheduler := some 0, fiber := some 1 }, { scheduler := some 0, cb := some 7 }⟩]
  pending := 2

/-- `cancelAll` on both events of a descriptor returns `0`, hands over the fiber and then the
callback, and leaves nothing counted. -/
theorem call_atomic_cancelAll : ∃ outcome next,
    IOManager.step willingCtl (.cancelAll 2) bothRegistered = .ok (outcome, next) ∧
      outcome.ret = 0 ∧ Performed (.cancelAll 2) bothRegistered next outcome ∧
      next.pending = 0 ∧ outcome.scheduled 0 = [.fiber 1, .callback 7] := by
  have hcall : Action.IsCall (.cancelAll 2) := trivial
  have hstep : IOManager.step willingCtl (.cancelAll 2) bothRegistered = .ok (_, _) := rfl
  refine ⟨_, _, hstep, rfl, ?_, rfl, rfl⟩
  rcases call_atomic hcall hstep with ⟨hret, -⟩ | ⟨-, hperformed⟩
  · cases hret
  · exact hperformed

end Cczoe.Scheduler
