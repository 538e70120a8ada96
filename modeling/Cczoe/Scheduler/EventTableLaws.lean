import Cczoe.Foundations.GuardedRuns
import Cczoe.Scheduler.EventTable

/-!
# Laws of the event table

What every operation can do, said once. For the part under the mutex of a context there is one
inversion lemma per operation (`addEvent_cases`, `delEvent_cases`, …); for the table, `step_view`
says that an action changes the context of its own descriptor, through that part, and no other, or
is refused because there is no context.
-/

set_option autoImplicit false
set_option relaxedAutoImplicit false

namespace Cczoe.Scheduler

open Foundations (bind_eq_ok)

/-! ### Masks -/

namespace Events

theorem has_insert_self {event : Event} (hevent : event ≠ .none) (events : Events) :
    (events.insert event).has event = true := by
  cases event with
  | none => exact absurd rfl hevent
  | read => rfl
  | write => rfl

theorem has_insert_of_ne {event other : Event} (hne : other ≠ event) (events : Events) :
    (events.insert event).has other = events.has other := by
  cases event <;> cases other <;> first | rfl | exact absurd rfl hne

theorem has_remove_self (event : Event) (events : Events) :
    (events.remove event).has event = false := by
  cases event <;> rfl

theorem has_remove_of_ne {event other : Event} (hne : other ≠ event) (events : Events) :
    (events.remove event).has other = events.has other := by
  cases event <;> cases other <;> first | rfl | exact absurd rfl hne

/-- Assumes: an event that is not there. -/
theorem count_insert {event : Event} {events : Events} (hevent : event ≠ .none)
    (hnew : events.has event = false) : (events.insert event).count = events.count + 1 := by
  obtain ⟨read, write⟩ := events
  cases event with
  | none => exact absurd rfl hevent
  | read =>
    obtain rfl : read = false := hnew
    cases write <;> rfl
  | write =>
    obtain rfl : write = false := hnew
    rfl

/-- Assumes: an event that is there. -/
theorem count_remove {event : Event} {events : Events} (hold : events.has event = true) :
    (events.remove event).count + 1 = events.count := by
  obtain ⟨read, write⟩ := events
  cases event with
  | none => cases hold
  | read =>
    obtain rfl : read = true := hold
    cases write <;> rfl
  | write =>
    obtain rfl : write = true := hold
    rfl

theorem count_le (events : Events) : events.count ≤ 2 := by
  obtain ⟨read, write⟩ := events
  cases read <;> cases write <;> decide

theorem remove_remove (events : Events) (event : Event) :
    (events.remove event).remove event = events.remove event := by
  cases event <;> rfl

end Events

/-! ### Contexts -/

namespace FdContext

/-- The event context of an event, an unused one for NONE. -/
def slot (ctx : FdContext) : Event → EventContext
  | .none => {}
  | .read => ctx.read
  | .write => ctx.write

theorem slot_with_events (ctx : FdContext) (events : Events) (event : Event) :
    { ctx with events := events }.slot event = ctx.slot event := by
  cases event <;> rfl

theorem getEventContext_eq {event : Event} (hevent : event ≠ .none) (ctx : FdContext) :
    ctx.getEventContext event = .ok (ctx.slot event) := by
  cases event with
  | none => exact absurd rfl hevent
  | read => rfl
  | write => rfl

theorem events_setEventContext (ctx : FdContext) (event : Event) (eventCtx : EventContext) :
    (ctx.setEventContext event eventCtx).events = ctx.events := by
  cases event <;> rfl

theorem slot_setEventContext_self {event : Event} (hevent : event ≠ .none) (ctx : FdContext)
    (eventCtx : EventContext) : (ctx.setEventContext event eventCtx).slot event = eventCtx := by
  cases event with
  | none => exact absurd rfl hevent
  | read => rfl
  | write => rfl

theorem slot_setEventContext_of_ne {event other : Event} (hne : other ≠ event) (ctx : FdContext)
    (eventCtx : EventContext) :
    (ctx.setEventContext event eventCtx).slot other = ctx.slot other := by
  cases event <;> cases other <;> first | rfl | exact absurd rfl hne

/-- The context with an event registered: the bit set and the event context replaced. -/
def register (ctx : FdContext) (event : Event) (eventCtx : EventContext) : FdContext :=
  { ctx with events := ctx.events.insert event }.setEventContext event eventCtx

/-- The context with an event taken out: the bit cleared and the event context replaced. -/
def release (ctx : FdContext) (event : Event) (eventCtx : EventContext) : FdContext :=
  { ctx with events := ctx.events.remove event }.setEventContext event eventCtx

theorem events_register (ctx : FdContext) (event : Event) (eventCtx : EventContext) :
    (ctx.register event eventCtx).events = ctx.events.insert event :=
  events_setEventContext _ event eventCtx

theorem events_release (ctx : FdContext) (event : Event) (eventCtx : EventContext) :
    (ctx.release event eventCtx).events = ctx.events.remove event :=
  events_setEventContext _ event eventCtx

theorem slot_register_self {event : Event} (hevent : event ≠ .none) (ctx : FdContext)
    (eventCtx : EventContext) : (ctx.register event eventCtx).slot event = eventCtx :=
  slot_setEventContext_self hevent _ eventCtx

theorem slot_register_of_ne {event other : Event} (hne : other ≠ event) (ctx : FdContext)
    (eventCtx : EventContext) : (ctx.register event eventCtx).slot other = ctx.slot other := by
  rw [register, slot_setEventContext_of_ne hne]
  cases other <;> rfl

theorem slot_release_self {event : Event} (hevent : event ≠ .none) (ctx : FdContext)
    (eventCtx : EventContext) : (ctx.release event eventCtx).slot event = eventCtx :=
  slot_setEventContext_self hevent _ eventCtx

theorem slot_release_of_ne {event other : Event} (hne : other ≠ event) (ctx : FdContext)
    (eventCtx : EventContext) : (ctx.release event eventCtx).slot other = ctx.slot other := by
  rw [release, slot_setEventContext_of_ne hne]
  cases other <;> rfl

/-- The event contexts of all registered events meet a condition. -/
def EachRegistered (condition : EventContext → Prop) (ctx : FdContext) : Prop :=
  ∀ event, ctx.events.has event = true → condition (ctx.slot event)

section EachRegistered

variable {condition : EventContext → Prop} {ctx : FdContext}

theorem eachRegistered_fresh : EachRegistered condition fresh := by
  intro event hhas
  cases event <;> cases hhas

theorem EachRegistered.register (heach : EachRegistered condition ctx) {event : Event}
    {eventCtx : EventContext} (hevent : event ≠ .none) (hnew : condition eventCtx) :
    EachRegistered condition (ctx.register event eventCtx) := by
  intro other hhas
  by_cases hother : other = event
  · rw [hother, slot_register_self hevent]
    exact hnew
  · rw [events_register, Events.has_insert_of_ne hother] at hhas
    rw [slot_register_of_ne hother]
    exact heach other hhas

theorem EachRegistered.release (heach : EachRegistered condition ctx) (event : Event)
    (eventCtx : EventContext) : EachRegistered condition (ctx.release event eventCtx) := by
  intro other hhas
  rw [events_release] at hhas
  by_cases hother : other = event
  · rw [hother, Events.has_remove_self] at hhas
    cases hhas
  · rw [Events.has_remove_of_ne hother] at hhas
    rw [slot_release_of_ne hother]
    exact heach other hhas

end EachRegistered

theorem triggerEvent_eq {event : Event} (hevent : event ≠ .none) (ctx : FdContext) :
    ctx.triggerEvent event =
      if (ctx.slot event).scheduler = none ∧ (ctx.slot event).task ≠ none then .error .nullScheduler
      else .ok (⟨event, ctx.events, (ctx.slot event).scheduler, (ctx.slot event).task⟩,
        ctx.release event { ctx.slot event with scheduler := none }) := by
  cases event with
  | none => exact absurd rfl hevent
  | read => rfl
  | write => rfl

/-- What a call of `triggerEvent` that returns has done. -/
theorem triggerEvent_cases {event : Event} {ctx after : FdContext} {trigger : Trigger}
    (htrigger : ctx.triggerEvent event = .ok (trigger, after)) :
    event ≠ .none ∧
      trigger = ⟨event, ctx.events, (ctx.slot event).scheduler, (ctx.slot event).task⟩ ∧
      after = ctx.release event { ctx.slot event with scheduler := none } := by
  have hevent : event ≠ .none := by
    rintro rfl
    cases htrigger
  rw [triggerEvent_eq hevent] at htrigger
  split_ifs at htrigger
  cases htrigger
  exact ⟨hevent, rfl, rfl⟩

end FdContext

/-! ### Under the mutex -/

namespace Locked

variable {κ : Type} {ctl : κ → CtlOp → Fd → Events → Bool × κ}

/-- The operation of `epoll_ctl` that leaves `events` registered. -/
def ctlFor (events : Events) : CtlOp := if events = Events.empty then .del else .mod

/-- The event context that `addEvent` stores. -/
def supplied (eventCtx : EventContext) (caller : Caller) : Option ℕ → EventContext
  | some cb => { eventCtx with scheduler := caller.scheduler, cb := some cb }
  | none => { eventCtx with scheduler := caller.scheduler, fiber := some caller.fiber }

/-- What `addEvent` does when it returns: it registers the event, or the kernel refuses. -/
theorem addEvent_cases {fd : Fd} {event : Event} {caller : Caller} {cb : Option ℕ}
    {s after : Locked κ} {outcome : Outcome}
    (hadd : addEvent ctl fd event caller cb s = .ok (outcome, after)) :
    s.ctx.events.has event = false ∧ ∃ op ok kernel,
      op = (if s.ctx.events = Events.empty then CtlOp.add else CtlOp.mod) ∧
      ctl s.kernel op fd (s.ctx.events.insert event) = (ok, kernel) ∧
      outcome = { ret := if ok then 0 else 1
                  lockedEvents := s.ctx.events
                  ctls := [⟨op, fd, s.ctx.events.insert event, ok⟩] } ∧
      ((ok = true ∧ event ≠ .none ∧ after =
          ⟨s.ctx.register event (supplied (s.ctx.slot event) caller cb), kernel, s.pending + 1⟩) ∨
        (ok = false ∧ after = { s with kernel := kernel })) := by
  by_cases hhas : s.ctx.events.has event = true
  · rw [addEvent, if_pos hhas] at hadd
    cases hadd
  rw [addEvent, if_neg hhas] at hadd
  refine ⟨Bool.eq_false_iff.mpr hhas, ?_⟩
  cases hctl : ctl s.kernel (if s.ctx.events = Events.empty then CtlOp.add else CtlOp.mod) fd
      (s.ctx.events.insert event) with
  | mk ok kernel =>
    refine ⟨_, ok, kernel, rfl, hctl, ?_⟩
    simp only [hctl] at hadd
    cases ok with
    | false =>
      cases hadd
      exact ⟨rfl, Or.inr ⟨rfl, rfl⟩⟩
    | true =>
      have hevent : event ≠ .none := by
        rintro rfl
        cases hadd
      simp only [if_true, FdContext.getEventContext_eq hevent] at hadd
      cases cb with
      | some cb =>
        cases hadd
        exact ⟨rfl, Or.inl ⟨rfl, hevent, rfl⟩⟩
      | none =>
        by_cases hrunning : caller.running = true
        · simp only [hrunning, if_true] at hadd
          cases hadd
          exact ⟨rfl, Or.inl ⟨rfl, hevent, rfl⟩⟩
        · simp only [hrunning] at hadd
          cases hadd

/-- The only faults of `addEvent` under the mutex are failed assertions. -/
theorem addEvent_fault {fd : Fd} {event : Event} {caller : Caller} {cb : Option ℕ} {s : Locked κ}
    {fault : Fault} (hadd : addEvent ctl fd event caller cb s = .error fault) :
    ∃ text, fault = .assertion text := by
  by_cases hhas : s.ctx.events.has event = true
  · rw [addEvent, if_pos hhas] at hadd
    cases hadd
    exact ⟨_, rfl⟩
  rw [addEvent, if_neg hhas] at hadd
  cases hctl : ctl s.kernel (if s.ctx.events = Events.empty then CtlOp.add else CtlOp.mod) fd
      (s.ctx.events.insert event) with
  | mk ok kernel =>
    simp only [hctl] at hadd
    cases ok with
    | false => cases hadd
    | true =>
      by_cases hevent : event = .none
      · subst hevent
        cases hadd
        exact ⟨_, rfl⟩
      simp only [if_true, FdContext.getEventContext_eq hevent] at hadd
      cases cb with
      | some cb => cases hadd
      | none =>
        by_cases hrunning : caller.running = true
        · simp only [hrunning, if_true] at hadd
          cases hadd
        · simp only [hrunning] at hadd
          cases hadd
          exact ⟨_, rfl⟩

/-- What the common front of `delEvent` and `cancelEvent` does. -/
theorem unregister_cases {fd : Fd} {event : Event} {s : Locked κ} :
    (s.ctx.events.has event = false ∧
      s.unregister ctl fd event = ({ ret := 1, lockedEvents := s.ctx.events }, s.kernel)) ∨
    (s.ctx.events.has event = true ∧ ∃ ok kernel,
      ctl s.kernel (ctlFor (s.ctx.events.remove event)) fd (s.ctx.events.remove event) =
        (ok, kernel) ∧
      s.unregister ctl fd event =
        ({ ret := if ok then 0 else 1
           lockedEvents := s.ctx.events
           ctls := [⟨ctlFor (s.ctx.events.remove event), fd, s.ctx.events.remove event, ok⟩] },
          kernel)) := by
  unfold unregister
  by_cases hhas : s.ctx.events.has event = true
  · rw [if_pos hhas]
    refine Or.inr ⟨hhas, _, _, rfl, rfl⟩
  · rw [if_neg hhas]
    exact Or.inl ⟨Bool.eq_false_iff.mpr hhas, rfl⟩

/-- What an operation that takes one event out can do when it returns: nothing, because the event is
not registered; nothing but an `epoll_ctl` call that fails; or release the event. -/
structure Released (ctl : κ → CtlOp → Fd → Events → Bool × κ) (fd : Fd) (event : Event)
    (s : Locked κ) (triggers : List Trigger) (eventCtx : EventContext) (outcome : Outcome)
    (after : Locked κ) : Prop where
  lockedEvents_eq : outcome.lockedEvents = s.ctx.events
  cases :
    (s.ctx.events.has event = false ∧ outcome.ret = 1 ∧ outcome.ctls = [] ∧
      outcome.triggers = [] ∧ after = s) ∨
    (s.ctx.events.has event = true ∧ ∃ ok kernel,
      ctl s.kernel (ctlFor (s.ctx.events.remove event)) fd (s.ctx.events.remove event) =
        (ok, kernel) ∧
      outcome.ctls = [⟨ctlFor (s.ctx.events.remove event), fd, s.ctx.events.remove event, ok⟩] ∧
      ((ok = true ∧ outcome.ret = 0 ∧ outcome.triggers = triggers ∧
          after = ⟨s.ctx.release event eventCtx, kernel, s.pending - 1⟩) ∨
        (ok = false ∧ outcome.ret = 1 ∧ outcome.triggers = [] ∧
          after = { s with kernel := kernel })))

theorem delEvent_cases {fd : Fd} {event : Event} {s after : Locked κ} {outcome : Outcome}
    (hdel : delEvent ctl fd event s = .ok (outcome, after)) :
    Released ctl fd event s [] {} outcome after := by
  unfold delEvent at hdel
  rcases unregister_cases with ⟨hhas, heq⟩ | ⟨hhas, ok, kernel, hctl, heq⟩
  · rw [heq] at hdel
    cases hdel
    exact ⟨rfl, Or.inl ⟨hhas, rfl, rfl, rfl, rfl⟩⟩
  · rw [heq] at hdel
    cases ok with
    | true =>
      cases hdel
      exact ⟨rfl, Or.inr ⟨hhas, true, kernel, hctl, rfl, Or.inl ⟨rfl, rfl, rfl, rfl⟩⟩⟩
    | false =>
      cases hdel
      exact ⟨rfl, Or.inr ⟨hhas, false, kernel, hctl, rfl, Or.inr ⟨rfl, rfl, rfl, rfl⟩⟩⟩

/-- `delEvent` triggers nothing. -/
theorem triggers_delEvent {fd : Fd} {event : Event} {s after : Locked κ} {outcome : Outcome}
    (hdel : delEvent ctl fd event s = .ok (outcome, after)) : outcome.triggers = [] := by
  rcases (delEvent_cases hdel).cases with ⟨_, _, _, hnone, _⟩ |
    ⟨_, _, _, _, _, ⟨_, _, hnone, _⟩ | ⟨_, _, hnone, _⟩⟩
  · exact hnone
  · exact hnone
  · exact hnone

theorem cancelEvent_cases {fd : Fd} {event : Event} {s after : Locked κ} {outcome : Outcome}
    (hcancel : cancelEvent ctl fd event s = .ok (outcome, after)) :
    Released ctl fd event s
      [⟨event, s.ctx.events.remove event, (s.ctx.slot event).scheduler, (s.ctx.slot event).task⟩]
      { s.ctx.slot event with scheduler := none } outcome after := by
  unfold cancelEvent at hcancel
  rcases unregister_cases with ⟨hhas, heq⟩ | ⟨hhas, ok, kernel, hctl, heq⟩
  · rw [heq] at hcancel
    cases hcancel
    exact ⟨rfl, Or.inl ⟨hhas, rfl, rfl, rfl, rfl⟩⟩
  · rw [heq] at hcancel
    cases ok with
    | false =>
      cases hcancel
      exact ⟨rfl, Or.inr ⟨hhas, false, kernel, hctl, rfl, Or.inr ⟨rfl, rfl, rfl, rfl⟩⟩⟩
    | true =>
      simp only [if_true] at hcancel
      cases htrigger : { s.ctx with events := s.ctx.events.remove event }.triggerEvent event with
      | error fault =>
        rw [htrigger] at hcancel
        cases hcancel
      | ok result =>
        obtain ⟨trigger, ctx⟩ := result
        obtain ⟨_, rfl, rfl⟩ := FdContext.triggerEvent_cases htrigger
        rw [htrigger] at hcancel
        cases hcancel
        refine ⟨rfl, Or.inr ⟨hhas, true, kernel, hctl, rfl, Or.inl ⟨rfl, rfl, ?_, ?_⟩⟩⟩
        · rw [FdContext.slot_with_events]
        · rw [FdContext.slot_with_events, FdContext.release, Events.remove_remove]
          rfl

/-- The context after `triggerEvent` was called for an event, or not. -/
def triggered (due : Bool) (event : Event) (ctx : FdContext) : FdContext :=
  if due then ctx.release event { ctx.slot event with scheduler := none } else ctx

/-- The calls of `triggerEvent` for an event: one or none. -/
def triggersOf (due : Bool) (event : Event) (ctx : FdContext) : List Trigger :=
  if due then [⟨event, ctx.events, (ctx.slot event).scheduler, (ctx.slot event).task⟩] else []

theorem eachRegistered_triggered {condition : EventContext → Prop} {ctx : FdContext}
    (heach : ctx.EachRegistered condition) (due : Bool) (event : Event) :
    (triggered due event ctx).EachRegistered condition := by
  cases due with
  | false => exact heach
  | true => exact heach.release event _

/-- Triggering READ leaves the bit and the event context of WRITE alone. -/
theorem events_write_triggered (due : Bool) (ctx : FdContext) :
    (triggered due .read ctx).events.write = ctx.events.write := by
  cases due <;> rfl

theorem slot_write_triggered (due : Bool) (ctx : FdContext) :
    (triggered due .read ctx).slot .write = ctx.slot .write := by
  cases due <;> rfl

theorem triggerCounted_cases {due : Bool} {event : Event} {triggers : List Trigger}
    {ctx : FdContext} {pending : UInt64} {after : List Trigger × FdContext × UInt64}
    (htrigger : triggerCounted due event (triggers, ctx, pending) = .ok after) :
    after = (triggers ++ triggersOf due event ctx, triggered due event ctx,
      pending - UInt64.ofNat due.toNat) := by
  cases due with
  | false =>
    cases htrigger
    simp [triggersOf, triggered]
  | true =>
    simp only [triggerCounted, if_true] at htrigger
    cases hcall : ctx.triggerEvent event with
    | error fault =>
      rw [hcall] at htrigger
      cases htrigger
    | ok result =>
      obtain ⟨trigger, changed⟩ := result
      obtain ⟨_, rfl, rfl⟩ := FdContext.triggerEvent_cases hcall
      rw [hcall] at htrigger
      cases htrigger
      rfl

/-- What `cancelAll` and the loop body of `idle` do when they trigger: READ when it is due, then
WRITE when it is due, each taken off the count. -/
structure Swept (read write : Bool) (s : Locked κ) (outcome : Outcome) (after : Locked κ) :
    Prop where
  triggers_eq : outcome.triggers =
    triggersOf read .read s.ctx ++ triggersOf write .write (triggered read .read s.ctx)
  ctx_eq : after.ctx = triggered write .write (triggered read .read s.ctx)
  pending_eq : after.pending = s.pending - UInt64.ofNat read.toNat - UInt64.ofNat write.toNat

/-- What `cancelAll` does when it returns: nothing, because no event is registered; nothing but an
`epoll_ctl` call that fails; or trigger what is registered. It returns `0` exactly when its call of
`epoll_ctl` is made and succeeds. -/
theorem cancelAll_outcome {fd : Fd} {s after : Locked κ} {outcome : Outcome}
    (hcancel : cancelAll ctl fd s = .ok (outcome, after)) :
    (outcome.ret = if outcome.ctls.any CtlCall.ok then 0 else 1) ∧
    outcome.lockedEvents = s.ctx.events ∧
      ((s.ctx.events = Events.empty ∧ outcome.ctls = [] ∧ outcome.triggers = [] ∧ after = s) ∨
      (s.ctx.events ≠ Events.empty ∧ ∃ ok kernel,
        ctl s.kernel .del fd Events.empty = (ok, kernel) ∧
        outcome.ctls = [⟨.del, fd, Events.empty, ok⟩] ∧
        ((ok = true ∧ Swept s.ctx.events.read s.ctx.events.write s outcome after ∧
            after.kernel = kernel) ∨
          (ok = false ∧ outcome.triggers = [] ∧ after = { s with kernel := kernel })))) := by
  by_cases hempty : s.ctx.events = Events.empty
  · rw [cancelAll, if_pos hempty] at hcancel
    cases hcancel
    exact ⟨rfl, rfl, Or.inl ⟨hempty, rfl, rfl, rfl⟩⟩
  rw [cancelAll, if_neg hempty] at hcancel
  cases hctl : ctl s.kernel .del fd Events.empty with
  | mk ok kernel =>
    simp only [hctl] at hcancel
    cases ok with
    | false =>
      cases hcancel
      exact ⟨rfl, rfl, Or.inr ⟨hempty, false, kernel, rfl, rfl, Or.inr ⟨rfl, rfl, rfl⟩⟩⟩
    | true =>
      simp only [if_true] at hcancel
      obtain ⟨first, hfirst, hcancel⟩ := bind_eq_ok hcancel
      obtain ⟨second, hsecond, hcancel⟩ := bind_eq_ok hcancel
      obtain rfl := triggerCounted_cases hfirst
      obtain rfl := triggerCounted_cases hsecond
      simp only [List.nil_append, events_write_triggered] at hcancel
      split_ifs at hcancel
      cases hcancel
      exact ⟨rfl, rfl, Or.inr ⟨hempty, true, kernel, rfl, rfl, Or.inl ⟨rfl, ⟨rfl, rfl, rfl⟩, rfl⟩⟩⟩

theorem cancelAll_cases {fd : Fd} {s after : Locked κ} {outcome : Outcome}
    (hcancel : cancelAll ctl fd s = .ok (outcome, after)) :
    outcome.lockedEvents = s.ctx.events ∧
      ((s.ctx.events = Events.empty ∧ outcome.ctls = [] ∧ outcome.triggers = [] ∧ after = s) ∨
      (s.ctx.events ≠ Events.empty ∧ ∃ ok kernel,
        ctl s.kernel .del fd Events.empty = (ok, kernel) ∧
        outcome.ctls = [⟨.del, fd, Events.empty, ok⟩] ∧
        ((ok = true ∧ Swept s.ctx.events.read s.ctx.events.write s outcome after ∧
            after.kernel = kernel) ∨
          (ok = false ∧ outcome.triggers = [] ∧ after = { s with kernel := kernel })))) :=
  (cancelAll_outcome hcancel).2

/-- What the loop body of `idle` does when it returns: nothing, because none of the events collected
is registered; or trigger every event collected, whether it is registered or not. -/
theorem report_cases {fd : Fd} {mask : EpollMask} {s after : Locked κ} {outcome : Outcome}
    (hreport : report ctl fd mask s = .ok (outcome, after)) :
    outcome.lockedEvents = s.ctx.events ∧
      ((s.ctx.events.inter mask.collected = Events.empty ∧ outcome.ctls = [] ∧
        outcome.triggers = [] ∧ after = s) ∨
      (s.ctx.events.inter mask.collected ≠ Events.empty ∧ ∃ ok kernel,
        ctl s.kernel (ctlFor (s.ctx.events.diff mask.collected)) fd
          (s.ctx.events.diff mask.collected) = (ok, kernel) ∧
        outcome.ctls = [⟨ctlFor (s.ctx.events.diff mask.collected), fd,
          s.ctx.events.diff mask.collected, ok⟩] ∧
        Swept mask.collected.read mask.collected.write s outcome after ∧
        after.kernel = kernel)) := by
  by_cases hnone : s.ctx.events.inter mask.collected = Events.empty
  · rw [report, if_pos hnone] at hreport
    cases hreport
    exact ⟨rfl, Or.inl ⟨hnone, rfl, rfl, rfl⟩⟩
  rw [report, if_neg hnone] at hreport
  obtain ⟨first, hfirst, hreport⟩ := bind_eq_ok hreport
  obtain ⟨second, hsecond, hreport⟩ := bind_eq_ok hreport
  obtain rfl := triggerCounted_cases hfirst
  obtain rfl := triggerCounted_cases hsecond
  cases hreport
  exact ⟨rfl, Or.inr ⟨hnone, _, _, rfl, rfl, ⟨rfl, rfl, rfl⟩, rfl⟩⟩

/-- The part of an action under the mutex of its context. -/
def step (ctl : κ → CtlOp → Fd → Events → Bool × κ) (action : Action) (s : Locked κ) :
    Except Fault (Outcome × Locked κ) :=
  match action with
  | .addEvent fd event caller cb => s.addEvent ctl fd event caller cb
  | .delEvent fd event => s.delEvent ctl fd event
  | .cancelEvent fd event => s.cancelEvent ctl fd event
  | .cancelAll fd => s.cancelAll ctl fd
  | .report fd mask => s.report ctl fd mask

end Locked

/-! ### The table -/

section Lists

variable {γ : Type}

/-- Assumes: an element at the index. Replacing it changes a sum by the difference. -/
theorem sum_map_set (f : γ → ℕ) {items : List γ} {index : ℕ} {old : γ} (new : γ)
    (hold : items[index]? = some old) :
    ((items.set index new).map f).sum + f old = (items.map f).sum + f new := by
  induction items generalizing index with
  | nil => cases hold
  | cons first rest ih =>
    cases index with
    | zero =>
      obtain rfl : first = old := Option.some.inj hold
      simp only [List.set_cons_zero, List.map_cons, List.sum_cons]
      omega
    | succ index =>
      have hrest := ih hold
      simp only [List.set_cons_succ, List.map_cons, List.sum_cons]
      omega

/-- Assumes: no element at an index of the list. Growing only adds fresh elements behind the old
ones. -/
theorem fdContextsResize_eq {size : ℕ} (fresh : γ) {contexts : List γ}
    (hsize : contexts.length ≤ size) :
    fdContextsResize size fresh contexts =
      contexts ++ List.replicate (size - contexts.length) fresh := by
  rw [fdContextsResize, List.take_of_length_le hsize]

end Lists

namespace IOManager

variable {κ : Type} {ctl : κ → CtlOp → Fd → Events → Bool × κ}

/-- What an action that found its context has changed: the context of its own descriptor, the kernel
and the count. -/
structure Touched (io : IOManager κ) (fd : Fd) (after : Locked κ) (next : IOManager κ) : Prop where
  kernel_eq : next.kernel = after.kernel
  pending_eq : next.pending = after.pending
  context_self : next.context fd = after.ctx
  context_other : ∀ other : Fd, other ≠ fd → next.context other = io.context other
  registered_eq : next.registered + (io.context fd).events.count =
    io.registered + after.ctx.events.count
  length_le : next.contexts.length ≤ max io.contexts.length (3 * 2 ^ 30)

/-- Fresh contexts behind those of the table do not change the context of any descriptor. -/
theorem context_append_fresh (io : IOManager κ) (count : ℕ) (fd : Fd) :
    (io.contexts ++ List.replicate count FdContext.fresh)[fd.val]?.getD FdContext.fresh =
      io.context fd := by
  unfold context
  by_cases hold : fd.val < io.contexts.length
  · rw [List.getElem?_append_left hold]
  · rw [List.getElem?_append_right (by omega), List.getElem?_replicate,
      List.getElem?_eq_none (by omega)]
    split_ifs <;> rfl

/-- The work on a context, in terms of the table before it grew. -/
theorem withContext_eq {io : IOManager κ} {fd : Fd} {count : ℕ}
    (body : Locked κ → Except Fault (Outcome × Locked κ))
    (hfound : fd.val < io.contexts.length + count) :
    io.withContext (io.contexts ++ List.replicate count FdContext.fresh) fd body =
      match body ⟨io.context fd, io.kernel, io.pending⟩ with
      | .error fault => .error fault
      | .ok (outcome, after) =>
        .ok (outcome, ⟨after.kernel,
          (io.contexts ++ List.replicate count FdContext.fresh).set fd after.ctx,
          after.pending⟩) := by
  have hbound : fd.val < (io.contexts ++ List.replicate count FdContext.fresh).length := by
    rwa [List.length_append, List.length_replicate]
  have hctx := context_append_fresh io count fd
  rw [List.getElem?_eq_getElem hbound, Option.getD_some] at hctx
  unfold withContext
  cases hbody : body ⟨io.context fd, io.kernel, io.pending⟩ with
  | error fault => simp only [List.getElem?_eq_getElem hbound, hctx, hbody]
  | ok result => simp only [List.getElem?_eq_getElem hbound, hctx, hbody]

/-- Assumes: the contexts of the table, with fresh ones behind them, in a bounded number, one of
them that of the descriptor. -/
theorem withContext_view {io next : IOManager κ} {fd : Fd} {outcome : Outcome} {count : ℕ}
    {body : Locked κ → Except Fault (Outcome × Locked κ)}
    (hlength : io.contexts.length + count ≤ max io.contexts.length (3 * 2 ^ 30))
    (hfound : fd.val < io.contexts.length + count)
    (hwork : io.withContext (io.contexts ++ List.replicate count FdContext.fresh) fd body =
      .ok (outcome, next)) :
    ∃ after, body ⟨io.context fd, io.kernel, io.pending⟩ = .ok (outcome, after) ∧
      Touched io fd after next := by
  have hbound : fd.val < (io.contexts ++ List.replicate count FdContext.fresh).length := by
    rwa [List.length_append, List.length_replicate]
  rw [withContext_eq body hfound] at hwork
  cases hbody : body ⟨io.context fd, io.kernel, io.pending⟩ with
  | error fault =>
    rw [hbody] at hwork
    cases hwork
  | ok result =>
    obtain ⟨outcome', after⟩ := result
    rw [hbody] at hwork
    cases hwork
    refine ⟨after, rfl, rfl, rfl, ?_, ?_, ?_, ?_⟩
    · simp only [context, List.getElem?_set_self hbound, Option.getD_some]
    · intro other hne
      have hindex : fd.val ≠ other.val := fun heq ↦ hne (Fin.ext heq.symm)
      rw [← context_append_fresh io count other, context, List.getElem?_set_ne hindex]
    · have hctx := context_append_fresh io count fd
      rw [List.getElem?_eq_getElem hbound, Option.getD_some] at hctx
      have hsum := sum_map_set (fun ctx : FdContext ↦ ctx.events.count) after.ctx
        (List.getElem?_eq_getElem hbound)
      have hold : io.registered = ((io.contexts ++ List.replicate count FdContext.fresh).map
          fun ctx : FdContext ↦ ctx.events.count).sum := by
        rw [registered, List.map_append, List.sum_append, List.map_replicate, List.sum_replicate]
        exact (Nat.add_zero _).symm
      rw [hold, ← hctx]
      exact hsum
    · simp only [List.length_set, List.length_append, List.length_replicate]
      exact hlength

/-- An action is refused because its descriptor has no context, or finds none where it has to, or
works on that context under its mutex. Which of these it is does not depend on `epoll_ctl`. -/
theorem step_forms (io : IOManager κ) (action : Action) :
    (io.contexts.length ≤ action.fd ∧
      ∀ ctl : κ → CtlOp → Fd → Events → Bool × κ, step ctl action io = .ok ({ ret := 1 }, io)) ∨
    (∀ ctl : κ → CtlOp → Fd → Events → Bool × κ, step ctl action io = .error .outOfRange) ∨
    ∃ count, io.contexts.length + count ≤ max io.contexts.length (3 * 2 ^ 30) ∧
      action.fd.val < io.contexts.length + count ∧
      ∀ ctl : κ → CtlOp → Fd → Events → Bool × κ, step ctl action io =
        io.withContext (io.contexts ++ List.replicate count FdContext.fresh) action.fd
          (Locked.step ctl action) := by
  have hnone : io.contexts ++ List.replicate 0 FdContext.fresh = io.contexts := List.append_nil _
  -- all operations but `addEvent` look the context up in the same way
  have hknown : ∀ body : (κ → CtlOp → Fd → Events → Bool × κ) → Locked κ →
        Except Fault (Outcome × Locked κ),
      (io.contexts.length ≤ action.fd ∧
        ∀ ctl, ifKnown action.fd (body ctl) io = .ok ({ ret := 1 }, io)) ∨
      (∀ ctl, ifKnown action.fd (body ctl) io = .error .outOfRange) ∨
      ∃ count, io.contexts.length + count ≤ max io.contexts.length (3 * 2 ^ 30) ∧
        action.fd.val < io.contexts.length + count ∧
        ∀ ctl, ifKnown action.fd (body ctl) io =
          io.withContext (io.contexts ++ List.replicate count FdContext.fresh) action.fd
            (body ctl) := by
    intro body
    by_cases hunknown : io.contexts.length ≤ action.fd
    · exact Or.inl ⟨hunknown, fun _ ↦ if_pos hunknown⟩
    · refine Or.inr (Or.inr ⟨0, Nat.le_max_left _ _, Nat.lt_of_not_le hunknown, fun _ ↦ ?_⟩)
      rw [hnone]
      exact if_neg hunknown
  cases action with
  | addEvent fd event caller cb =>
    right
    by_cases hold : fd < io.contexts.length
    · refine Or.inr ⟨0, Nat.le_max_left _ _, hold, fun ctl ↦ ?_⟩
      have hlookup : io.lookup fd = io.contexts := if_pos hold
      rw [hnone, ← hlookup]
      rfl
    have hfd := fd.isLt
    have hlookup : io.lookup fd = io.contexts ++
        List.replicate (fd * 3 / 2 - io.contexts.length) FdContext.fresh :=
      (if_neg hold).trans (fdContextsResize_eq FdContext.fresh (by omega))
    by_cases hfound : fd.val < io.contexts.length + (fd * 3 / 2 - io.contexts.length)
    · refine Or.inr ⟨_, by omega, hfound, fun ctl ↦ ?_⟩
      rw [← hlookup]
      rfl
    · refine Or.inl fun ctl ↦ ?_
      have hbehind : (io.lookup fd)[fd.val]? = none := by
        apply List.getElem?_eq_none
        rw [hlookup, List.length_append, List.length_replicate]
        omega
      simp only [step, addEvent, withContext, hbehind]
  | delEvent fd event => exact hknown fun ctl ↦ Locked.delEvent ctl fd event
  | cancelEvent fd event => exact hknown fun ctl ↦ Locked.cancelEvent ctl fd event
  | cancelAll fd => exact hknown fun ctl ↦ Locked.cancelAll ctl fd
  | report fd mask => exact hknown fun ctl ↦ Locked.report ctl fd mask

/-- An action is refused because its descriptor has no context, or works on that context alone. -/
theorem step_view {io next : IOManager κ} {action : Action} {outcome : Outcome}
    (hstep : step ctl action io = .ok (outcome, next)) :
    (io.contexts.length ≤ action.fd ∧ outcome = { ret := 1 } ∧ next = io) ∨
      ∃ after, Locked.step ctl action ⟨io.context action.fd, io.kernel, io.pending⟩ =
          .ok (outcome, after) ∧ Touched io action.fd after next := by
  rcases step_forms io action with ⟨hunknown, heq⟩ | heq | ⟨count, hlength, hfound, heq⟩
  · rw [heq] at hstep
    cases hstep
    exact Or.inl ⟨hunknown, rfl, rfl⟩
  · rw [heq] at hstep
    cases hstep
  · rw [heq] at hstep
    exact Or.inr (withContext_view hlength hfound hstep)

/-- A fault of an action other than an index out of range is one of its part under the mutex. -/
theorem step_fault_view {io : IOManager κ} {action : Action} {fault : Fault}
    (hstep : step ctl action io = .error fault) (hfault : fault ≠ .outOfRange) :
    Locked.step ctl action ⟨io.context action.fd, io.kernel, io.pending⟩ = .error fault := by
  rcases step_forms io action with ⟨_, heq⟩ | heq | ⟨count, _, hfound, heq⟩
  · rw [heq] at hstep
    cases hstep
  · rw [heq] at hstep
    cases hstep
    exact absurd rfl hfault
  · rw [heq, withContext_eq _ hfound] at hstep
    cases hlocked : Locked.step ctl action ⟨io.context action.fd, io.kernel, io.pending⟩ with
    | error other =>
      rw [hlocked] at hstep
      cases hstep
      rfl
    | ok result =>
      rw [hlocked] at hstep
      cases hstep

/-- Assumes: the part of an action under the mutex goes the same way with either `epoll_ctl`. So
does the action. -/
theorem step_congr {io : IOManager κ} {action : Action}
    {ctl' : κ → CtlOp → Fd → Events → Bool × κ}
    (hlocked : Locked.step ctl action ⟨io.context action.fd, io.kernel, io.pending⟩ =
      Locked.step ctl' action ⟨io.context action.fd, io.kernel, io.pending⟩) :
    step ctl action io = step ctl' action io := by
  rcases step_forms io action with ⟨_, heq⟩ | heq | ⟨count, _, hfound, heq⟩
  · rw [heq, heq]
  · rw [heq, heq]
  · rw [heq, heq, withContext_eq _ hfound, withContext_eq _ hfound, hlocked]

end IOManager

end Cczoe.Scheduler
