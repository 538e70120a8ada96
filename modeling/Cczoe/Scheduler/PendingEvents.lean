import Cczoe.Foundations.GuardedRuns
import Cczoe.Scheduler.EventTableLaws
import Mathlib.Algebra.Order.BigOperators.Group.List
import Mathlib.Algebra.Order.Ring.Nat

/-!
# The count of pending events

`m_pendingEventCount` is meant to be the number of READ and WRITE bits set over all contexts, and
`triggerEvent` to be called only for an event that is registered, whose event context has a
scheduler.

Both hold along every run in which `idle` collects for a context either no registered event or only
registered ones, and `addEvent` is called by threads that have a scheduler
(`pending_eq_registered`). An error or a hang-up on a descriptor that waits for one direction breaks
this: `idle` collects both directions and triggers the one that is not registered
(`hangup_on_reader`).
-/

set_option autoImplicit false
set_option relaxedAutoImplicit false

namespace Cczoe.Scheduler

open Foundations

/-- Every registered event has a scheduler to hand its task to. -/
def Served (ctx : FdContext) : Prop :=
  ctx.EachRegistered fun eventCtx ↦ eventCtx.scheduler ≠ none

/-- The condition on an action, by the context it works on. `idle` may report a context none of
whose registered events are collected, or one whose registered events include all that are
collected. -/
def AllowedOn (ctx : FdContext) : Action → Prop
  | .addEvent _ _ caller _ => caller.scheduler ≠ none
  | .report _ mask => ctx.events.inter mask.collected = Events.empty ∨
      ∀ event, mask.collected.has event = true → ctx.events.has event = true
  | .delEvent _ _ | .cancelEvent _ _ | .cancelAll _ => True

/-- The condition on an action in a state of the table. -/
def Allowed {κ : Type} (io : IOManager κ) (action : Action) : Prop :=
  AllowedOn (io.context action.fd) action

/-- Every call of `triggerEvent` is for an event that was registered when the action took the mutex,
and whose event context has a scheduler. The bit is still set when the call is made, unless the
action is `cancelEvent`, which has just cleared it. -/
def TriggersRegistered (action : Action) (outcome : Outcome) : Prop :=
  ∀ trigger ∈ outcome.triggers, outcome.lockedEvents.has trigger.event = true ∧
    trigger.scheduler ≠ none ∧
    (trigger.eventsAtCall.has trigger.event = true ∨ ∃ fd event, action = .cancelEvent fd event)

/-! ### The count -/

theorem toNat_add_one {pending : UInt64} {registered : ℕ} (hpending : pending.toNat = registered)
    (hbound : registered + 1 < 2 ^ 64) : (pending + 1).toNat = registered + 1 := by
  rw [UInt64.toNat_add, hpending]
  exact Nat.mod_eq_of_lt hbound

theorem toNat_sub_toNat {pending : UInt64} {registered : ℕ} (due : Bool)
    (hpending : pending.toNat = registered + due.toNat) :
    (pending - UInt64.ofNat due.toNat).toNat = registered := by
  have hdue : (UInt64.ofNat due.toNat).toNat = due.toNat := by cases due <;> rfl
  have hle : UInt64.ofNat due.toNat ≤ pending := by
    rw [UInt64.le_iff_toNat_le, hdue, hpending]
    exact Nat.le_add_left _ _
  rw [UInt64.toNat_sub_of_le _ _ hle, hdue, hpending, Nat.add_sub_cancel]

/-- Assumes: an event that is registered when it is due. -/
theorem count_triggered {due : Bool} {event : Event} {ctx : FdContext}
    (hdue : due = true → ctx.events.has event = true) :
    (Locked.triggered due event ctx).events.count + due.toNat = ctx.events.count := by
  cases due with
  | false => rfl
  | true =>
    rw [Locked.triggered, if_pos rfl, FdContext.events_release]
    exact Events.count_remove (hdue rfl)

/-! ### One action under the mutex -/

section LockedSteps

variable {κ : Type} {ctl : κ → CtlOp → Fd → Events → Bool × κ}

/-- What an action under the mutex has to keep: served contexts, good triggers, and a count that
differs from the bits of the context by the bits of the `others`. -/
structure Kept (others : ℕ) (action : Action) (outcome : Outcome) (after : Locked κ) : Prop where
  served : Served after.ctx
  triggers : TriggersRegistered action outcome
  pending_eq : after.pending.toNat = others + after.ctx.events.count

theorem triggersRegistered_nil {action : Action} {outcome : Outcome}
    (htriggers : outcome.triggers = []) : TriggersRegistered action outcome := by
  intro trigger hmem
  rw [htriggers] at hmem
  exact absurd hmem List.not_mem_nil

/-- Assumes: events that are registered when they are due. -/
theorem Kept.of_swept {others : ℕ} {action : Action} {read write : Bool} {s after : Locked κ}
    {outcome : Outcome} (hserved : Served s.ctx)
    (hpending : s.pending.toNat = others + s.ctx.events.count)
    (hlocked : outcome.lockedEvents = s.ctx.events)
    (hread : read = true → s.ctx.events.has .read = true)
    (hwrite : write = true → s.ctx.events.has .write = true)
    (hswept : Locked.Swept read write s outcome after) : Kept others action outcome after := by
  obtain ⟨htriggers, hctx, hcount⟩ := hswept
  have hwriteBit :
      (Locked.triggered read .read s.ctx).events.has .write = s.ctx.events.has .write :=
    Locked.events_write_triggered read s.ctx
  have hreadCount := count_triggered hread
  have hwriteCount :
      (Locked.triggered write .write (Locked.triggered read .read s.ctx)).events.count +
      write.toNat = (Locked.triggered read .read s.ctx).events.count :=
    count_triggered fun hdue ↦ hwriteBit.trans (hwrite hdue)
  refine ⟨?_, ?_, ?_⟩
  · rw [hctx]
    exact Locked.eachRegistered_triggered
      (Locked.eachRegistered_triggered hserved read .read) write .write
  · intro trigger hmem
    rw [htriggers] at hmem
    rw [hlocked]
    rcases List.mem_append.mp hmem with hfirst | hsecond
    · cases read with
      | false => exact absurd hfirst List.not_mem_nil
      | true =>
        rw [List.mem_singleton.mp hfirst]
        exact ⟨hread rfl, hserved .read (hread rfl), Or.inl (hread rfl)⟩
    · cases write with
      | false => exact absurd hsecond List.not_mem_nil
      | true =>
        rw [List.mem_singleton.mp hsecond]
        refine ⟨hwrite rfl, ?_, Or.inl ?_⟩
        · rw [Locked.slot_write_triggered]
          exact hserved .write (hwrite rfl)
        · rw [hwriteBit]
          exact hwrite rfl
  · rw [hcount, hctx]
    apply toNat_sub_toNat
    apply toNat_sub_toNat
    rw [hpending]
    omega

/-- Assumes: an event that the action takes out is handed over by the given triggers. -/
theorem Kept.of_released {others : ℕ} {action : Action} {fd : Fd} {event : Event}
    {s after : Locked κ} {triggers : List Trigger} {eventCtx : EventContext} {outcome : Outcome}
    (hserved : Served s.ctx) (hpending : s.pending.toNat = others + s.ctx.events.count)
    (htriggers : s.ctx.events.has event = true → ∀ trigger ∈ triggers,
      s.ctx.events.has trigger.event = true ∧ trigger.scheduler ≠ none ∧
      (trigger.eventsAtCall.has trigger.event = true ∨ ∃ fd event, action = .cancelEvent fd event))
    (hreleased : Locked.Released ctl fd event s triggers eventCtx outcome after) :
    Kept others action outcome after := by
  obtain ⟨hlocked, hcases⟩ := hreleased
  rcases hcases with ⟨_, _, _, hnone, rfl⟩ | ⟨hhas, ok, kernel, _, _, hdone | hrefused⟩
  · exact ⟨hserved, triggersRegistered_nil hnone, hpending⟩
  · obtain ⟨_, _, htriggered, rfl⟩ := hdone
    refine ⟨hserved.release event eventCtx, ?_, ?_⟩
    · intro trigger hmem
      rw [htriggered] at hmem
      rw [hlocked]
      exact htriggers hhas trigger hmem
    · have hcount := Events.count_remove hhas
      rw [FdContext.events_release]
      apply toNat_sub_toNat true
      rw [hpending, ← hcount, Bool.toNat_true, Nat.add_assoc]
  · obtain ⟨_, _, hnone, rfl⟩ := hrefused
    exact ⟨hserved, triggersRegistered_nil hnone, hpending⟩

/-- One action under the mutex keeps what it has to. -/
theorem Kept.of_step {others : ℕ} {action : Action} {s after : Locked κ} {outcome : Outcome}
    (hserved : Served s.ctx) (hallowed : AllowedOn s.ctx action) (hbound : others + 3 < 2 ^ 64)
    (hpending : s.pending.toNat = others + s.ctx.events.count)
    (hstep : Locked.step ctl action s = .ok (outcome, after)) :
    Kept others action outcome after := by
  cases action with
  | addEvent fd event caller cb =>
    obtain ⟨hnew, op, ok, kernel, _, _, rfl, hadded | hrefused⟩ := Locked.addEvent_cases hstep
    · obtain ⟨_, hevent, rfl⟩ := hadded
      have hscheduler : (Locked.supplied (s.ctx.slot event) caller cb).scheduler ≠ none := by
        cases cb <;> exact hallowed
      have hcount := Events.count_insert hevent hnew
      have hle := s.ctx.events.count_le
      refine ⟨hserved.register hevent hscheduler, triggersRegistered_nil rfl, ?_⟩
      rw [FdContext.events_register, hcount, ← Nat.add_assoc]
      exact toNat_add_one hpending (by omega)
    · obtain ⟨_, rfl⟩ := hrefused
      exact ⟨hserved, triggersRegistered_nil rfl, hpending⟩
  | delEvent fd event =>
    refine Kept.of_released hserved hpending ?_ (Locked.delEvent_cases hstep)
    exact fun _ _ hmem ↦ absurd hmem List.not_mem_nil
  | cancelEvent fd event =>
    refine Kept.of_released hserved hpending ?_ (Locked.cancelEvent_cases hstep)
    intro hhas trigger hmem
    rw [List.mem_singleton.mp hmem]
    exact ⟨hhas, hserved event hhas, Or.inr ⟨fd, event, rfl⟩⟩
  | cancelAll fd =>
    obtain ⟨hlocked, ⟨_, _, hnone, rfl⟩ | ⟨_, ok, kernel, _, _, hdone | hrefused⟩⟩ :=
      Locked.cancelAll_cases hstep
    · exact ⟨hserved, triggersRegistered_nil hnone, hpending⟩
    · exact Kept.of_swept hserved hpending hlocked id id hdone.2.1
    · obtain ⟨_, hnone, rfl⟩ := hrefused
      exact ⟨hserved, triggersRegistered_nil hnone, hpending⟩
  | report fd mask =>
    obtain ⟨hlocked, ⟨_, _, hnone, rfl⟩ | ⟨hsome, ok, kernel, _, _, hswept, _⟩⟩ :=
      Locked.report_cases hstep
    · exact ⟨hserved, triggersRegistered_nil hnone, hpending⟩
    · have hall : ∀ event, mask.collected.has event = true → s.ctx.events.has event = true :=
        hallowed.resolve_left hsome
      exact Kept.of_swept hserved hpending hlocked (hall .read) (hall .write) hswept

/-! ### No null scheduler -/

/-- Assumes: a scheduler when the event is due. -/
theorem triggerCounted_ok {due : Bool} {event : Event} (hevent : event ≠ .none)
    {ctx : FdContext} (hscheduler : due = true → (ctx.slot event).scheduler ≠ none)
    (triggers : List Trigger) (pending : UInt64) :
    ∃ after, Locked.triggerCounted due event (triggers, ctx, pending) = .ok after := by
  cases due with
  | false => exact ⟨_, rfl⟩
  | true =>
    have hserved : ¬ ((ctx.slot event).scheduler = none ∧ (ctx.slot event).task ≠ none) :=
      fun hnull ↦ hscheduler rfl hnull.1
    simp only [Locked.triggerCounted, if_true, FdContext.triggerEvent_eq hevent, if_neg hserved]
    exact ⟨_, rfl⟩

/-- Assumes: events that have a scheduler when they are due. Both sweeps return. -/
theorem sweep_ok {read write : Bool} {ctx : FdContext} (pending : UInt64)
    (hread : read = true → (ctx.slot .read).scheduler ≠ none)
    (hwrite : write = true → (ctx.slot .write).scheduler ≠ none) :
    ∃ first second, Locked.triggerCounted read .read ([], ctx, pending) = .ok first ∧
      Locked.triggerCounted write .write first = .ok second := by
  obtain ⟨first, hfirst⟩ :=
    triggerCounted_ok (show Event.read ≠ .none by decide) hread [] pending
  obtain rfl := Locked.triggerCounted_cases hfirst
  obtain ⟨second, hsecond⟩ := triggerCounted_ok (show Event.write ≠ .none by decide)
    (fun hdue ↦ by rw [Locked.slot_write_triggered]; exact hwrite hdue) _ _
  exact ⟨_, second, hfirst, hsecond⟩

/-- An allowed action never hands a task to a null scheduler. -/
theorem locked_step_ne_nullScheduler {action : Action} {s : Locked κ} (hserved : Served s.ctx)
    (hallowed : AllowedOn s.ctx action) : Locked.step ctl action s ≠ .error .nullScheduler := by
  intro hfault
  cases action with
  | addEvent fd event caller cb =>
    obtain ⟨text, htext⟩ := Locked.addEvent_fault hfault
    cases htext
  | delEvent fd event =>
    simp only [Locked.step, Locked.delEvent] at hfault
    split_ifs at hfault
  | cancelEvent fd event =>
    simp only [Locked.step, Locked.cancelEvent] at hfault
    rcases Locked.unregister_cases with ⟨_, heq⟩ | ⟨hhas, ok, kernel, _, heq⟩
    · rw [heq] at hfault
      cases hfault
    · rw [heq] at hfault
      cases ok with
      | false => cases hfault
      | true =>
        have hevent : event ≠ .none := by
          rintro rfl
          cases hhas
        have hnull : ¬ ((s.ctx.slot event).scheduler = none ∧ (s.ctx.slot event).task ≠ none) :=
          fun hnone ↦ hserved event hhas hnone.1
        simp only [if_true, FdContext.triggerEvent_eq hevent, FdContext.slot_with_events,
          if_neg hnull] at hfault
        cases hfault
  | cancelAll fd =>
    simp only [Locked.step] at hfault
    by_cases hempty : s.ctx.events = Events.empty
    · rw [Locked.cancelAll, if_pos hempty] at hfault
      cases hfault
    rw [Locked.cancelAll, if_neg hempty] at hfault
    cases hctl : ctl s.kernel .del fd Events.empty with
    | mk ok kernel =>
      simp only [hctl] at hfault
      cases ok with
      | false => cases hfault
      | true =>
        obtain ⟨first, second, hfirst, hsecond⟩ :=
          sweep_ok s.pending (hserved .read) (hserved .write)
        have hread : Locked.triggerCounted s.ctx.events.read .read ([], s.ctx, s.pending) =
            .ok first := hfirst
        have hwrite : Locked.triggerCounted first.2.1.events.write .write first = .ok second := by
          rw [Locked.triggerCounted_cases hfirst, Locked.events_write_triggered,
            ← Locked.triggerCounted_cases hfirst]
          exact hsecond
        simp only [if_true, hread, hwrite, ok_bind] at hfault
        split_ifs at hfault
        cases hfault
  | report fd mask =>
    simp only [Locked.step] at hfault
    by_cases hnone : s.ctx.events.inter mask.collected = Events.empty
    · rw [Locked.report, if_pos hnone] at hfault
      cases hfault
    have hall : ∀ event, mask.collected.has event = true → s.ctx.events.has event = true :=
      hallowed.resolve_left hnone
    obtain ⟨first, second, hfirst, hsecond⟩ := sweep_ok s.pending
      (fun hdue ↦ hserved .read (hall .read hdue)) (fun hdue ↦ hserved .write (hall .write hdue))
    have hread : Locked.triggerCounted mask.collected.read .read ([], s.ctx, s.pending) =
        .ok first := hfirst
    have hwrite : Locked.triggerCounted mask.collected.write .write first = .ok second := hsecond
    rw [Locked.report, if_neg hnone] at hfault
    simp only [hread, hwrite, ok_bind] at hfault
    cases hfault

end LockedSteps

/-! ### Runs -/

section Runs

variable {κ : Type} {ctl : κ → CtlOp → Fd → Events → Bool × κ}

/-- What holds of the table in every reachable state. -/
structure Counted (io : IOManager κ) : Prop where
  served : ∀ fd, Served (io.context fd)
  length_le : io.contexts.length ≤ 3 * 2 ^ 30
  pending_eq : io.pending.toNat = io.registered

theorem counted_init (kernel : κ) : Counted (IOManager.init kernel) where
  served := fun _ ↦ FdContext.eachRegistered_fresh
  length_le := Nat.zero_le _
  pending_eq := rfl

theorem registered_le (io : IOManager κ) : io.registered ≤ 2 * io.contexts.length := by
  unfold IOManager.registered
  induction io.contexts with
  | nil => exact Nat.zero_le _
  | cons ctx rest ih =>
    have hle := ctx.events.count_le
    rw [List.map_cons, List.sum_cons, List.length_cons]
    omega

theorem count_context_le (io : IOManager κ) (fd : Fd) :
    (io.context fd).events.count ≤ io.registered := by
  unfold IOManager.context IOManager.registered
  cases hfound : io.contexts[fd.val]? with
  | none => exact Nat.zero_le _
  | some ctx =>
    have hmem : ctx.events.count ∈ io.contexts.map fun ctx ↦ ctx.events.count :=
      List.mem_map_of_mem (List.mem_of_getElem? hfound)
    exact List.single_le_sum (fun n _ ↦ Nat.zero_le n) _ hmem

/-- One allowed action keeps the count. -/
theorem Counted.step {io next : IOManager κ} {action : Action} {outcome : Outcome}
    (hcounted : Counted io) (hallowed : Allowed io action)
    (hstep : IOManager.step ctl action io = .ok (outcome, next)) :
    Counted next ∧ TriggersRegistered action outcome := by
  rcases IOManager.step_view hstep with ⟨_, rfl, rfl⟩ | ⟨after, hlocked, htouched⟩
  · exact ⟨hcounted, triggersRegistered_nil rfl⟩
  have hregistered := htouched.registered_eq
  have hbits := registered_le io
  have hlength := hcounted.length_le
  obtain ⟨others, hothers⟩ := Nat.exists_eq_add_of_le' (count_context_le io action.fd)
  obtain ⟨hserved, htriggers, hpending⟩ := Kept.of_step
    (s := ⟨io.context action.fd, io.kernel, io.pending⟩) (hcounted.served action.fd) hallowed
    (show others + 3 < 2 ^ 64 by omega) (hcounted.pending_eq.trans hothers) hlocked
  refine ⟨⟨?_, ?_, ?_⟩, htriggers⟩
  · intro fd
    by_cases hfd : fd = action.fd
    · rw [hfd, htouched.context_self]
      exact hserved
    · rw [htouched.context_other fd hfd]
      exact hcounted.served fd
  · have hnext := htouched.length_le
    omega
  · rw [htouched.pending_eq, hpending]
    omega

/-- Along every run of allowed actions, the count is the number of bits registered, every call of
`triggerEvent` is for a registered event that has a scheduler, and no allowed action hands a task to
a null scheduler. -/
theorem pending_eq_registered (kernel : κ) {trace : List (Action × Outcome)} {final : IOManager κ}
    (hrun : Run (IOManager.step ctl) Allowed (IOManager.init kernel) trace final) :
    final.pending.toNat = final.registered ∧
      (∀ entry ∈ trace, TriggersRegistered entry.1 entry.2) ∧
      ∀ action, Allowed final action → IOManager.step ctl action final ≠ .error .nullScheduler := by
  have hkeeps : ∀ (now : IOManager κ) (action : Action) (outcome : Outcome) (next : IOManager κ),
      Counted now → Allowed now action → IOManager.step ctl action now = .ok (outcome, next) →
      Counted next ∧ TriggersRegistered action outcome :=
    fun _ _ _ _ hnow hallowed hstep ↦ hnow.step hallowed hstep
  obtain ⟨hcounted, htriggers⟩ := hrun.invariant (counted_init kernel) hkeeps
  refine ⟨hcounted.pending_eq, htriggers, ?_⟩
  intro action hallowed hfault
  have hlocked := IOManager.step_fault_view hfault (by decide)
  exact locked_step_ne_nullScheduler (s := ⟨final.context action.fd, final.kernel, final.pending⟩)
    (hcounted.served action.fd) hallowed hlocked

end Runs

/-! ### A reader whose peer hangs up -/

/-- Fiber `1` of scheduler `0` waits to read from descriptor `5`. -/
def awaitRead : Action := .addEvent 5 .read ⟨some 0, 1, true⟩ none

/-- The table while the fiber waits. -/
def awaiting : IOManager Unit :=
  ⟨(), [{}, {}, {}, {}, {}, { events := ⟨true, false⟩, read := ⟨some 0, some 1, none⟩ }, {}], 1⟩

theorem step_awaitRead : IOManager.step willingCtl awaitRead (IOManager.init ()) =
    .ok ({ ret := 0, ctls := [⟨.add, 5, ⟨true, false⟩, true⟩] }, awaiting) := rfl

/-- The fiber waits, and its descriptor becomes readable. -/
theorem pending_eq_registered_readable :
    ∃ outcome final, IOManager.step willingCtl (.report 5 ⟨true, false, false, false⟩) awaiting =
        .ok (outcome, final) ∧
      final.pending.toNat = final.registered ∧ outcome.triggers ≠ [] ∧
      TriggersRegistered (.report 5 ⟨true, false, false, false⟩) outcome := by
  have hawait : Allowed (IOManager.init ()) awaitRead := Option.some_ne_none 0
  have hreadable : Allowed awaiting (.report 5 ⟨true, false, false, false⟩) := by
    right
    intro event hcollected
    cases event with
    | none => cases hcollected
    | read => rfl
    | write => cases hcollected
  refine ⟨_, _, rfl, ?_⟩
  have hrun := ((Run.nil.snoc hawait step_awaitRead).snoc hreadable rfl)
  obtain ⟨hpending, htriggers, _⟩ := pending_eq_registered () hrun
  exact ⟨hpending, by decide, htriggers _ List.mem_concat_self⟩

/-- The fiber waits, and the peer hangs up: `idle` triggers WRITE, which is not registered and has
no scheduler, and takes two events off a count of one. -/
theorem hangup_on_reader :
    (∃ outcome, IOManager.step willingCtl awaitRead (IOManager.init ()) = .ok (outcome, awaiting)) ∧
    ∃ outcome final, IOManager.step willingCtl (.report 5 ⟨false, false, false, true⟩) awaiting =
        .ok (outcome, final) ∧
      (∃ trigger ∈ outcome.triggers, trigger.event = .write ∧
        outcome.lockedEvents.has .write = false ∧ trigger.eventsAtCall.has .write = false ∧
        trigger.scheduler = none) ∧
      final.registered = 0 ∧ final.pending.toNat = 2 ^ 64 - 1 := by
  refine ⟨⟨_, step_awaitRead⟩, _, _, rfl,
    ⟨⟨.write, ⟨false, false⟩, none, none⟩, ?_, rfl, rfl, rfl, rfl⟩, rfl, rfl⟩
  exact List.mem_cons_of_mem _ List.mem_cons_self

end Cczoe.Scheduler
