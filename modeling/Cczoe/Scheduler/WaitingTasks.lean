import Cczoe.Scheduler.Registrations

/-!
# How long a task waits

A task waits in the event table from the `addEvent` that supplies it until its event is triggered or
deleted. `step_waiting` says that no other action makes a task wait, and `step_triggers` that no
task waits for an event any more once it has been triggered. Neither depends on what `epoll_ctl`
answers or on which events are reported.
-/

set_option autoImplicit false
set_option relaxedAutoImplicit false

namespace Cczoe.Scheduler

/-- No task waits that did not wait before, and none waits for an event that was triggered. -/
structure Relieves (triggers : List Trigger) (ctx after : FdContext) : Prop where
  keeps : ∀ event task, after.waiting event = some task → ctx.waiting event = some task
  clears : ∀ trigger ∈ triggers, after.waiting trigger.event = none

namespace Relieves

theorem refl (ctx : FdContext) : Relieves [] ctx ctx :=
  ⟨fun _ _ hwaiting ↦ hwaiting, fun _ hmem ↦ absurd hmem List.not_mem_nil⟩

/-- Assumes: all triggers are for one event. It is taken out. -/
theorem release {triggers : List Trigger} {event : Event}
    (hevent : ∀ trigger ∈ triggers, trigger.event = event) (ctx : FdContext)
    (eventCtx : EventContext) : Relieves triggers ctx (ctx.release event eventCtx) where
  keeps := by
    intro other task hwaiting
    by_cases hother : other = event
    · rw [hother, waiting_release_self] at hwaiting
      cases hwaiting
    · rwa [waiting_release_of_ne hother] at hwaiting
  clears := by
    intro trigger hmem
    rw [hevent trigger hmem, waiting_release_self]

/-- One sweep after another. -/
theorem trans {first second : List Trigger} {ctx middle after : FdContext}
    (hfirst : Relieves first ctx middle) (hsecond : Relieves second middle after) :
    Relieves (first ++ second) ctx after where
  keeps := fun event task hwaiting ↦
    hfirst.keeps event task (hsecond.keeps event task hwaiting)
  clears := by
    intro trigger hmem
    rcases List.mem_append.mp hmem with hearlier | hlater
    · cases hwaiting : after.waiting trigger.event with
      | none => rfl
      | some task =>
        have hbefore := hsecond.keeps trigger.event task hwaiting
        cases (hfirst.clears trigger hearlier).symm.trans hbefore
    · exact hsecond.clears trigger hlater

/-- An event is triggered, or not. -/
theorem triggered (due : Bool) (event : Event) (ctx : FdContext) :
    Relieves (Locked.triggersOf due event ctx) ctx (Locked.triggered due event ctx) := by
  cases due with
  | false => exact refl ctx
  | true =>
    refine release ?_ ctx _
    intro trigger hmem
    rw [List.mem_singleton.mp hmem]

variable {κ : Type} {ctl : κ → CtlOp → Fd → Events → Bool × κ} {s after : Locked κ}
  {outcome : Outcome}

theorem of_swept {read write : Bool} (hswept : Locked.Swept read write s outcome after) :
    Relieves outcome.triggers s.ctx after.ctx := by
  rw [hswept.triggers_eq, hswept.ctx_eq]
  exact (triggered read .read s.ctx).trans (triggered write .write _)

/-- Assumes: an operation that takes one event out and triggers that event at most. -/
theorem of_released {fd : Fd} {event : Event} {triggers : List Trigger} {eventCtx : EventContext}
    (hreleased : Locked.Released ctl fd event s triggers eventCtx outcome after)
    (hevent : ∀ trigger ∈ triggers, trigger.event = event) :
    Relieves outcome.triggers s.ctx after.ctx := by
  rcases hreleased.cases with ⟨-, -, -, hnone, rfl⟩ |
    ⟨-, ok, kernel, -, -, ⟨-, -, htriggers, rfl⟩ | ⟨-, -, hnone, rfl⟩⟩
  · rw [hnone]
    exact refl _
  · rw [htriggers]
    exact release hevent s.ctx eventCtx
  · rw [hnone]
    exact refl _

end Relieves

section Steps

variable {κ : Type} {ctl : κ → CtlOp → Fd → Events → Bool × κ}

/-- An action under the mutex relieves tasks, or it is an `addEvent` that registers an event. -/
theorem relieves_or_registers {action : Action} {s after : Locked κ} {outcome : Outcome}
    (hstep : Locked.step ctl action s = .ok (outcome, after)) :
    Relieves outcome.triggers s.ctx after.ctx ∨ ∃ fd event caller cb,
      action = .addEvent fd event caller cb ∧ outcome.ret = 0 ∧ outcome.triggers = [] ∧
        event ≠ .none ∧ after.ctx =
          s.ctx.register event (Locked.supplied (s.ctx.slot event) caller cb) := by
  cases action with
  | addEvent fd event caller cb =>
    obtain ⟨-, op, ok, kernel, -, -, rfl, ⟨rfl, hevent, rfl⟩ | ⟨rfl, rfl⟩⟩ :=
      Locked.addEvent_cases hstep
    · exact Or.inr ⟨fd, event, caller, cb, rfl, rfl, rfl, hevent, rfl⟩
    · exact Or.inl (Relieves.refl s.ctx)
  | delEvent fd event =>
    exact Or.inl (Relieves.of_released (Locked.delEvent_cases hstep) nofun)
  | cancelEvent fd event =>
    refine Or.inl (Relieves.of_released (Locked.cancelEvent_cases hstep) ?_)
    intro trigger hmem
    rw [List.mem_singleton.mp hmem]
  | cancelAll fd =>
    obtain ⟨-, ⟨-, -, hnone, rfl⟩ | ⟨-, ok, kernel, -, -, ⟨-, hswept, -⟩ | ⟨-, hnone, rfl⟩⟩⟩ :=
      Locked.cancelAll_cases hstep
    · rw [hnone]
      exact Or.inl (Relieves.refl _)
    · exact Or.inl (Relieves.of_swept hswept)
    · rw [hnone]
      exact Or.inl (Relieves.refl _)
  | report fd mask =>
    obtain ⟨-, ⟨-, -, hnone, rfl⟩ | ⟨-, ok, kernel, -, -, hswept, -⟩⟩ := Locked.report_cases hstep
    · rw [hnone]
      exact Or.inl (Relieves.refl _)
    · exact Or.inl (Relieves.of_swept hswept)

variable {io next : IOManager κ} {action : Action} {outcome : Outcome}

/-- A task that waits after an action has waited before, or a successful `addEvent` has stored
it. -/
theorem step_waiting (hstep : IOManager.step ctl action io = .ok (outcome, next)) {fd : Fd}
    {event : Event} {task : Task} (hwaiting : (next.context fd).waiting event = some task) :
    (io.context fd).waiting event = some task ∨ ∃ caller cb,
      action = .addEvent fd event caller cb ∧ outcome.ret = 0 ∧
        (Locked.supplied ((io.context fd).slot event) caller cb).task = some task := by
  rcases IOManager.step_view hstep with ⟨-, -, rfl⟩ | ⟨after, hlocked, htouched⟩
  · exact Or.inl hwaiting
  by_cases hfd : fd = action.fd
  · rw [hfd, htouched.context_self] at hwaiting
    rcases relieves_or_registers hlocked with
      hrelieves | ⟨added, other, caller, cb, rfl, hret, -, hother, hafter⟩
    · rw [hfd]
      exact Or.inl (hrelieves.keeps event task hwaiting)
    · rw [hafter] at hwaiting
      cases hfd
      by_cases hsame : event = other
      · subst hsame
        rw [waiting_register_self hother] at hwaiting
        exact Or.inr ⟨caller, cb, rfl, hret, hwaiting⟩
      · rw [waiting_register_of_ne hsame] at hwaiting
        exact Or.inl hwaiting
  · rw [htouched.context_other fd hfd] at hwaiting
    exact Or.inl hwaiting

/-- No task waits for an event that an action has triggered. -/
theorem step_triggers (hstep : IOManager.step ctl action io = .ok (outcome, next))
    {trigger : Trigger} (hmem : trigger ∈ outcome.triggers) :
    (next.context action.fd).waiting trigger.event = none := by
  rcases IOManager.step_view hstep with ⟨-, rfl, -⟩ | ⟨after, hlocked, htouched⟩
  · exact absurd hmem List.not_mem_nil
  · rw [htouched.context_self]
    rcases relieves_or_registers hlocked with
      hrelieves | ⟨added, other, caller, cb, -, -, hnone, -, -⟩
    · exact hrelieves.clears trigger hmem
    · rw [hnone] at hmem
      exact absurd hmem List.not_mem_nil

end Steps

end Cczoe.Scheduler
