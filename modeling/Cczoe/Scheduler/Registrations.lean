import Cczoe.Foundations.GuardedRuns
import Cczoe.Foundations.Ledger
import Cczoe.Scheduler.PendingEvents

/-!
# Who is woken

A successful `addEvent(fd, e)` supplies a task, the callback or else the calling fiber. Read as a
ledger of one waiting place for every descriptor and direction, the table should hand over the task
supplied last, once, or let `delEvent` withdraw it.

The ledger is balanced along every run in which reports name registered events only and `addEvent`
without a callback finds no callback in the event context (`history_answered`). `triggerEvent`
leaves the callback there, so after a callback was triggered the next fiber that waits for the same
event is not woken: the old callback is scheduled again (`stale_callback_runs_again`).
-/

set_option autoImplicit false
set_option relaxedAutoImplicit false

namespace Cczoe.Scheduler

open Foundations Foundations.Ledger

/-! ### The ledger of a run -/

/-- The task that `addEvent` supplies. -/
def suppliedTask (caller : Caller) : Option ℕ → Task
  | some cb => .callback cb
  | none => .fiber caller.fiber

/-- What a successful `addEvent` or `delEvent` enters for an event. -/
def ownEntries (event : Event) (outcome : Outcome) : Action → List (Entry Task)
  | .addEvent _ added caller cb =>
    if added = event ∧ outcome.ret = 0 then [.supplied (suppliedTask caller cb)] else []
  | .delEvent _ deleted => if deleted = event ∧ outcome.ret = 0 then [.withdrawn] else []
  | .cancelEvent _ _ | .cancelAll _ | .report _ _ => []

/-- What the calls of `triggerEvent` enter for an event. -/
def triggerEntries (event : Event) (triggers : List Trigger) : List (Entry Task) :=
  (triggers.filter fun trigger ↦ trigger.event = event).map fun trigger ↦ .handed trigger.task

/-- What a step of a run enters for an event of a descriptor. -/
def entriesOf (fd : Fd) (event : Event) (entry : Action × Outcome) : List (Entry Task) :=
  if entry.1.fd = fd then
    ownEntries event entry.2 entry.1 ++ triggerEntries event entry.2.triggers
  else []

/-- The ledger of an event of a descriptor. -/
def history (fd : Fd) (event : Event) (trace : List (Action × Outcome)) : List (Entry Task) :=
  trace.flatMap (entriesOf fd event)

/-- The task that waits for an event. -/
def FdContext.waiting (ctx : FdContext) (event : Event) : Option Task :=
  if ctx.events.has event then (ctx.slot event).task else none

/-- The condition on an action, by the context it works on: `addEvent` without a callback finds none
in the event context, and reports name registered events only. -/
def ClearOn (ctx : FdContext) : Action → Prop
  | .addEvent _ event _ cb => cb = none → (ctx.slot event).cb = none
  | .report _ mask => ∀ event, mask.collected.has event = true → ctx.events.has event = true
  | .delEvent _ _ | .cancelEvent _ _ | .cancelAll _ => True

/-- The condition on an action in a state of the table. -/
def Clear {κ : Type} (io : IOManager κ) (action : Action) : Prop :=
  ClearOn (io.context action.fd) action

/-! ### One action under the mutex -/

/-- Every registered event has a task. -/
def Armed (ctx : FdContext) : Prop := ctx.EachRegistered fun eventCtx ↦ eventCtx.task ≠ none

/-- The entries lead from what waits in one context to what waits in the other. -/
def Records (event : Event) (ctx after : FdContext) (entries : List (Entry Task)) : Prop :=
  Leads entries (ctx.waiting event) (after.waiting event)

theorem records_nil {event : Event} {ctx after : FdContext}
    (hwaiting : after.waiting event = ctx.waiting event) : Records event ctx after [] := by
  unfold Records
  rw [hwaiting]
  exact leads_nil _

theorem waiting_register_self {event : Event} (hevent : event ≠ .none) (ctx : FdContext)
    (eventCtx : EventContext) : (ctx.register event eventCtx).waiting event = eventCtx.task := by
  rw [FdContext.waiting, FdContext.events_register, if_pos (Events.has_insert_self hevent _),
    FdContext.slot_register_self hevent]

theorem waiting_register_of_ne {event other : Event} (hne : other ≠ event) (ctx : FdContext)
    (eventCtx : EventContext) :
    (ctx.register event eventCtx).waiting other = ctx.waiting other := by
  rw [FdContext.waiting, FdContext.events_register, Events.has_insert_of_ne hne,
    FdContext.slot_register_of_ne hne]
  rfl

theorem waiting_release_self (event : Event) (ctx : FdContext) (eventCtx : EventContext) :
    (ctx.release event eventCtx).waiting event = none := by
  rw [FdContext.waiting, FdContext.events_release, Events.has_remove_self]
  rfl

theorem waiting_release_of_ne {event other : Event} (hne : other ≠ event) (ctx : FdContext)
    (eventCtx : EventContext) :
    (ctx.release event eventCtx).waiting other = ctx.waiting other := by
  rw [FdContext.waiting, FdContext.events_release, Events.has_remove_of_ne hne,
    FdContext.slot_release_of_ne hne]
  rfl

/-- Assumes: a registered event with a task. Handing the task over is recorded by the trigger. -/
theorem records_handed {event : Event} {ctx : FdContext} (harmed : Armed ctx)
    (hhas : ctx.events.has event = true) (eventCtx : EventContext) :
    Records event ctx (ctx.release event eventCtx) [.handed (ctx.slot event).task] := by
  obtain ⟨task, htask⟩ := Option.ne_none_iff_exists'.mp (harmed event hhas)
  rw [Records, FdContext.waiting, if_pos hhas, waiting_release_self, htask]
  exact leads_handed task

/-- Assumes: a registered event with a task. Dropping the task is recorded as withdrawn. -/
theorem records_withdrawn {event : Event} {ctx : FdContext} (harmed : Armed ctx)
    (hhas : ctx.events.has event = true) (eventCtx : EventContext) :
    Records event ctx (ctx.release event eventCtx) [.withdrawn] := by
  obtain ⟨task, htask⟩ := Option.ne_none_iff_exists'.mp (harmed event hhas)
  rw [Records, FdContext.waiting, if_pos hhas, waiting_release_self, htask]
  exact leads_withdrawn task

/-- Assumes: an event that is not registered. Registering it is recorded as supplied. -/
theorem records_supplied {event : Event} {ctx : FdContext} (hevent : event ≠ .none)
    (hnew : ctx.events.has event = false) {eventCtx : EventContext} {task : Task}
    (htask : eventCtx.task = some task) :
    Records event ctx (ctx.register event eventCtx) [.supplied task] := by
  rw [Records, FdContext.waiting, hnew, if_neg Bool.false_ne_true, waiting_register_self hevent,
    htask]
  exact leads_supplied task

/-- What an action under the mutex has to keep: a task for every registered event, and ledgers that
follow what waits. -/
structure Entered {κ : Type} (action : Action) (ctx : FdContext) (outcome : Outcome)
    (after : Locked κ) : Prop where
  armed : Armed after.ctx
  records : ∀ event, Records event ctx after.ctx
    (ownEntries event outcome action ++ triggerEntries event outcome.triggers)

theorem triggerEntries_append (event : Event) (first second : List Trigger) :
    triggerEntries event (first ++ second) =
      triggerEntries event first ++ triggerEntries event second := by
  rw [triggerEntries, List.filter_append, List.map_append]
  rfl

theorem triggerEntries_self (trigger : Trigger) :
    triggerEntries trigger.event [trigger] = [.handed trigger.task] := by
  simp [triggerEntries]

theorem triggerEntries_of_ne {event : Event} {trigger : Trigger} (hne : event ≠ trigger.event) :
    triggerEntries event [trigger] = [] := by
  simp [triggerEntries, hne.symm]

/-- Assumes: an event that is registered when it is due. -/
theorem records_triggered {due : Bool} {dueEvent : Event} {ctx : FdContext} (harmed : Armed ctx)
    (hdue : due = true → ctx.events.has dueEvent = true) (event : Event) :
    Records event ctx (Locked.triggered due dueEvent ctx)
      (triggerEntries event (Locked.triggersOf due dueEvent ctx)) := by
  cases due with
  | false => exact records_nil rfl
  | true =>
    by_cases hevent : event = dueEvent
    · subst hevent
      have hentries : triggerEntries event (Locked.triggersOf true event ctx) =
          [.handed (ctx.slot event).task] :=
        triggerEntries_self ⟨event, ctx.events, (ctx.slot event).scheduler, (ctx.slot event).task⟩
      rw [hentries]
      exact records_handed harmed (hdue rfl) _
    · have hentries : triggerEntries event (Locked.triggersOf true dueEvent ctx) = [] :=
        triggerEntries_of_ne hevent
      rw [hentries]
      exact records_nil (waiting_release_of_ne hevent ctx _)

theorem ownEntries_of_ret_ne {event : Event} {outcome : Outcome} (hret : outcome.ret ≠ 0)
    (action : Action) : ownEntries event outcome action = [] := by
  cases action with
  | addEvent fd added caller cb => exact if_neg fun hboth ↦ hret hboth.2
  | delEvent fd deleted => exact if_neg fun hboth ↦ hret hboth.2
  | cancelEvent fd event => rfl
  | cancelAll fd => rfl
  | report fd mask => rfl

section LockedSteps

variable {κ : Type} {ctl : κ → CtlOp → Fd → Events → Bool × κ}

theorem Entered.of_unchanged {action : Action} {ctx : FdContext} {outcome : Outcome}
    {after : Locked κ} (harmed : Armed ctx) (hctx : after.ctx = ctx)
    (hown : ∀ event, ownEntries event outcome action = []) (htriggers : outcome.triggers = []) :
    Entered action ctx outcome after := by
  refine ⟨hctx ▸ harmed, ?_⟩
  intro event
  rw [hown, htriggers, hctx]
  exact records_nil rfl

/-- Assumes: events that are registered when they are due. -/
theorem Entered.of_swept {action : Action} {read write : Bool} {s after : Locked κ}
    {outcome : Outcome} (harmed : Armed s.ctx)
    (hown : ∀ event, ownEntries event outcome action = [])
    (hread : read = true → s.ctx.events.has .read = true)
    (hwrite : write = true → s.ctx.events.has .write = true)
    (hswept : Locked.Swept read write s outcome after) : Entered action s.ctx outcome after := by
  have hmiddle : Armed (Locked.triggered read .read s.ctx) :=
    Locked.eachRegistered_triggered harmed read .read
  have hwriteBit : write = true → (Locked.triggered read .read s.ctx).events.has .write = true :=
    fun hdue ↦ (Locked.events_write_triggered read s.ctx).trans (hwrite hdue)
  refine ⟨?_, ?_⟩
  · rw [hswept.ctx_eq]
    exact Locked.eachRegistered_triggered hmiddle write .write
  · intro event
    rw [hown, List.nil_append, hswept.triggers_eq, triggerEntries_append, hswept.ctx_eq]
    exact Leads.trans (records_triggered harmed hread event)
      (records_triggered hmiddle hwriteBit event)

/-- Assumes: the entries of an event taken out record that. -/
theorem Entered.of_released {action : Action} {fd : Fd} {taken : Event} {s after : Locked κ}
    {triggers : List Trigger} {eventCtx : EventContext} {outcome : Outcome} (harmed : Armed s.ctx)
    (hself : outcome.ret = 0 → outcome.triggers = triggers → s.ctx.events.has taken = true →
      Records taken s.ctx (s.ctx.release taken eventCtx)
        (ownEntries taken outcome action ++ triggerEntries taken outcome.triggers))
    (hother : outcome.triggers = triggers → ∀ event, event ≠ taken →
      ownEntries event outcome action ++ triggerEntries event outcome.triggers = [])
    (hreleased : Locked.Released ctl fd taken s triggers eventCtx outcome after) :
    Entered action s.ctx outcome after := by
  rcases hreleased.cases with ⟨_, hret, _, hnone, rfl⟩ |
    ⟨hhas, ok, kernel, _, _, ⟨_, hret, htriggers, rfl⟩ | ⟨_, hret, hnone, rfl⟩⟩
  · exact Entered.of_unchanged harmed rfl
      (fun _ ↦ ownEntries_of_ret_ne (by rw [hret]; exact Nat.one_ne_zero) _) hnone
  · refine ⟨harmed.release taken eventCtx, ?_⟩
    intro event
    by_cases hevent : event = taken
    · rw [hevent]
      exact hself hret htriggers hhas
    · rw [hother htriggers event hevent]
      exact records_nil (waiting_release_of_ne hevent s.ctx eventCtx)
  · exact Entered.of_unchanged harmed rfl
      (fun _ ↦ ownEntries_of_ret_ne (by rw [hret]; exact Nat.one_ne_zero) _) hnone

/-- Assumes: no callback left in the event context when none is given. `addEvent` stores the task it
is given. -/
theorem task_supplied {eventCtx : EventContext} (caller : Caller) {cb : Option ℕ}
    (hclear : cb = none → eventCtx.cb = none) :
    (Locked.supplied eventCtx caller cb).task = some (suppliedTask caller cb) := by
  cases cb with
  | some cb => rfl
  | none =>
    simp only [Locked.supplied, EventContext.task, hclear rfl]
    rfl

/-- One action under the mutex keeps what it has to. -/
theorem Entered.of_step {action : Action} {s after : Locked κ} {outcome : Outcome}
    (harmed : Armed s.ctx) (hclear : ClearOn s.ctx action)
    (hstep : Locked.step ctl action s = .ok (outcome, after)) :
    Entered action s.ctx outcome after := by
  cases action with
  | addEvent fd event caller cb =>
    obtain ⟨hnew, op, ok, kernel, _, _, houtcome, ⟨hok, hevent, rfl⟩ | ⟨hok, rfl⟩⟩ :=
      Locked.addEvent_cases hstep
    · have hret : outcome.ret = 0 := by
        rw [houtcome, hok]
        rfl
      have htriggers : outcome.triggers = [] := by rw [houtcome]
      have htask := task_supplied caller hclear
      refine ⟨harmed.register hevent (by rw [htask]; exact Option.some_ne_none _), ?_⟩
      intro other
      rw [htriggers]
      by_cases hother : other = event
      · subst hother
        have hown : ownEntries other outcome (.addEvent fd other caller cb) =
            [.supplied (suppliedTask caller cb)] := if_pos ⟨rfl, hret⟩
        rw [hown]
        exact records_supplied hevent hnew htask
      · have hown : ownEntries other outcome (.addEvent fd event caller cb) = [] :=
          if_neg fun hboth ↦ hother hboth.1.symm
        rw [hown]
        exact records_nil (waiting_register_of_ne hother _ _)
    · have hret : outcome.ret = 1 := by
        rw [houtcome, hok]
        rfl
      have htriggers : outcome.triggers = [] := by rw [houtcome]
      exact Entered.of_unchanged harmed rfl
        (fun _ ↦ ownEntries_of_ret_ne (by rw [hret]; exact Nat.one_ne_zero) _) htriggers
  | delEvent fd event =>
    refine Entered.of_released harmed ?_ ?_ (Locked.delEvent_cases hstep)
    · intro hret htriggers hhas
      have hown : ownEntries event outcome (.delEvent fd event) = [.withdrawn] :=
        if_pos ⟨rfl, hret⟩
      rw [hown, htriggers]
      exact records_withdrawn harmed hhas {}
    · intro htriggers other hother
      have hown : ownEntries other outcome (.delEvent fd event) = [] :=
        if_neg fun hboth ↦ hother hboth.1.symm
      rw [hown, htriggers]
      rfl
  | cancelEvent fd event =>
    refine Entered.of_released harmed ?_ ?_ (Locked.cancelEvent_cases hstep)
    · intro _ htriggers hhas
      have hentries : triggerEntries event outcome.triggers =
          [.handed (s.ctx.slot event).task] := by
        rw [htriggers]
        exact triggerEntries_self _
      rw [hentries]
      exact records_handed harmed hhas _
    · intro htriggers other hother
      rw [htriggers]
      exact triggerEntries_of_ne hother
  | cancelAll fd =>
    obtain ⟨_, ⟨_, _, hnone, rfl⟩ | ⟨_, ok, kernel, _, _, ⟨_, hswept, _⟩ | ⟨_, hnone, rfl⟩⟩⟩ :=
      Locked.cancelAll_cases hstep
    · exact Entered.of_unchanged harmed rfl (fun _ ↦ rfl) hnone
    · exact Entered.of_swept harmed (fun _ ↦ rfl) id id hswept
    · exact Entered.of_unchanged harmed rfl (fun _ ↦ rfl) hnone
  | report fd mask =>
    obtain ⟨_, ⟨_, _, hnone, rfl⟩ | ⟨_, ok, kernel, _, _, hswept, _⟩⟩ := Locked.report_cases hstep
    · exact Entered.of_unchanged harmed rfl (fun _ ↦ rfl) hnone
    · exact Entered.of_swept harmed (fun _ ↦ rfl) (hclear .read) (hclear .write) hswept

end LockedSteps

/-! ### Runs -/

section Runs

variable {κ : Type} {ctl : κ → CtlOp → Fd → Events → Bool × κ}

/-- What holds along a run: every registered event has a task, and every ledger is balanced. -/
structure Tallied (trace : List (Action × Outcome)) (io : IOManager κ) : Prop where
  armed : ∀ fd, Armed (io.context fd)
  balanced : ∀ fd event, Balanced (history fd event trace) ((io.context fd).waiting event)

theorem tallied_init (kernel : κ) : Tallied [] (IOManager.init kernel) where
  armed := fun _ ↦ FdContext.eachRegistered_fresh
  balanced := by
    intro fd event
    have hwaiting : ((IOManager.init kernel).context fd).waiting event = none := by
      cases event <;> rfl
    rw [hwaiting]
    exact Balanced.nil

theorem history_snoc (fd : Fd) (event : Event) (trace : List (Action × Outcome))
    (entry : Action × Outcome) :
    history fd event (trace ++ [entry]) = history fd event trace ++ entriesOf fd event entry := by
  rw [history, List.flatMap_append, List.flatMap_singleton]
  rfl

/-- Assumes: a step that enters nothing. -/
theorem history_snoc_of_nil {fd : Fd} {event : Event} {entry : Action × Outcome}
    (hnone : entriesOf fd event entry = []) (trace : List (Action × Outcome)) :
    history fd event (trace ++ [entry]) = history fd event trace := by
  rw [history_snoc, hnone, List.append_nil]

theorem entriesOf_of_fd_ne {fd : Fd} {action : Action} (hfd : fd ≠ action.fd) (event : Event)
    (outcome : Outcome) : entriesOf fd event (action, outcome) = [] :=
  if_neg hfd.symm

theorem entriesOf_refused (fd : Fd) (event : Event) (action : Action) :
    entriesOf fd event (action, { ret := 1 }) = [] := by
  unfold entriesOf
  split_ifs
  · rw [ownEntries_of_ret_ne Nat.one_ne_zero]
    rfl
  · rfl

/-- One step keeps the ledgers balanced. -/
theorem Tallied.step {trace : List (Action × Outcome)} {io next : IOManager κ} {action : Action}
    {outcome : Outcome} (htallied : Tallied trace io) (hclear : Clear io action)
    (hstep : IOManager.step ctl action io = .ok (outcome, next)) :
    Tallied (trace ++ [(action, outcome)]) next := by
  rcases IOManager.step_view hstep with ⟨_, rfl, rfl⟩ | ⟨after, hlocked, htouched⟩
  · refine ⟨htallied.armed, ?_⟩
    intro fd event
    rw [history_snoc_of_nil (entriesOf_refused fd event action)]
    exact htallied.balanced fd event
  obtain ⟨harmed, hrecords⟩ := Entered.of_step
    (s := ⟨io.context action.fd, io.kernel, io.pending⟩) (htallied.armed action.fd) hclear hlocked
  constructor
  · intro fd
    by_cases hfd : fd = action.fd
    · rw [hfd, htouched.context_self]
      exact harmed
    · rw [htouched.context_other fd hfd]
      exact htallied.armed fd
  · intro fd event
    by_cases hfd : fd = action.fd
    · subst hfd
      have hentries : entriesOf action.fd event (action, outcome) =
          ownEntries event outcome action ++ triggerEntries event outcome.triggers := if_pos rfl
      rw [history_snoc, hentries, htouched.context_self]
      exact hrecords event _ (htallied.balanced action.fd event)
    · rw [history_snoc_of_nil (entriesOf_of_fd_ne hfd event outcome), htouched.context_other fd hfd]
      exact htallied.balanced fd event

/-- A task waits for every registered event, and for no other. -/
theorem isSome_waiting {ctx : FdContext} (harmed : Armed ctx) (event : Event) :
    (ctx.waiting event).isSome = ctx.events.has event := by
  unfold FdContext.waiting
  by_cases hhas : ctx.events.has event = true
  · obtain ⟨task, htask⟩ := Option.ne_none_iff_exists'.mp (harmed event hhas)
    rw [if_pos hhas, htask, hhas]
    rfl
  · rw [if_neg hhas, Bool.eq_false_iff.mpr hhas]
    rfl

/-- `delEvent` triggers nothing. -/
theorem triggers_of_delEvent {io next : IOManager κ} {fd : Fd} {event : Event} {outcome : Outcome}
    (hstep : IOManager.step ctl (.delEvent fd event) io = .ok (outcome, next)) :
    outcome.triggers = [] := by
  rcases IOManager.step_view hstep with ⟨_, rfl, _⟩ | ⟨_, hlocked, _⟩
  · rfl
  · exact Locked.triggers_delEvent hlocked

/-- Along every run of clear actions, for every event of every descriptor: what a trigger hands over
is the task of the last successful `addEvent`; every successful `addEvent` is answered by one
trigger or one `delEvent`, or its task still waits, which is so when the event is registered; and
`delEvent` hands over nothing. -/
theorem history_answered (kernel : κ) {trace : List (Action × Outcome)} {final : IOManager κ}
    (hrun : Run (IOManager.step ctl) Clear (IOManager.init kernel) trace final) :
    (∀ fd event, Answered (history fd event trace) ((final.context fd).waiting event) ∧
      ((final.context fd).waiting event).isSome = (final.context fd).events.has event) ∧
    ∀ fd event outcome, (Action.delEvent fd event, outcome) ∈ trace → outcome.triggers = [] := by
  have htallied : Tallied trace final := by
    refine hrun.history_invariant (tallied_init kernel) ?_
    intro trace now action outcome next hnow hclear hstep
    exact hnow.step hclear hstep
  constructor
  · intro fd event
    exact ⟨(htallied.balanced fd event).answered, isSome_waiting (htallied.armed fd) event⟩
  · have hkeeps : ∀ (now : IOManager κ) (action : Action) (outcome : Outcome) (next : IOManager κ),
        True → Clear now action → IOManager.step ctl action now = .ok (outcome, next) →
        True ∧ ∀ fd event, action = .delEvent fd event → outcome.triggers = [] := by
      intro now action outcome next _ _ hstep
      refine ⟨trivial, ?_⟩
      rintro fd event rfl
      exact triggers_of_delEvent hstep
    intro fd event outcome hmem
    exact (hrun.invariant trivial hkeeps).2 _ hmem fd event rfl

end Runs

/-! ### A callback that stays behind -/

/-- A report names registered events only. -/
def ReportsRegistered {κ : Type} (io : IOManager κ) (action : Action) : Prop :=
  ∀ fd mask, action = .report fd mask →
    ∀ event, mask.collected.has event = true → (io.context fd).events.has event = true

/-- Descriptor `5` becomes readable. -/
def readable : Action := .report 5 ⟨true, false, false, false⟩

theorem collected_readable {event : Event} {io : IOManager Unit}
    (hread : (io.context 5).events.has .read = true)
    (hcollected : (EpollMask.mk true false false false).collected.has event = true) :
    (io.context 5).events.has event = true := by
  cases event with
  | none => cases hcollected
  | read => exact hread
  | write => cases hcollected

/-- A fiber waits for a descriptor that becomes readable, and is woken. -/
theorem history_answered_readable :
    ∃ trace final, Run (IOManager.step willingCtl) Clear (IOManager.init ()) trace final ∧
      history 5 .read trace = [.supplied (.fiber 1), .handed (some (.fiber 1))] ∧
      Answered (history 5 .read trace) ((final.context 5).waiting .read) := by
  have hwait : Clear (IOManager.init ()) awaitRead := fun _ ↦ rfl
  have hwaiting := Run.nil.snoc hwait (show IOManager.step willingCtl _ _ = .ok (_, _) from rfl)
  have hrun := hwaiting.snoc (show Clear _ readable from fun _ ↦ collected_readable rfl) rfl
  refine ⟨_, _, hrun, rfl, ?_⟩
  exact ((history_answered () hrun).1 5 .read).1

/-- A callback is triggered, then a fiber waits for the same event: the callback is handed over
again and the fiber is not. -/
theorem stale_callback_runs_again :
    ∃ trace final,
      Run (IOManager.step willingCtl) ReportsRegistered (IOManager.init ()) trace final ∧
      history 5 .read trace = [.supplied (.callback 7), .handed (some (.callback 7)),
        .supplied (.fiber 1), .handed (some (.callback 7))] ∧
      ¬ Answered (history 5 .read trace) ((final.context 5).waiting .read) := by
  have hadd : ∀ (io : IOManager Unit) (caller : Caller) (cb : Option ℕ),
      ReportsRegistered io (.addEvent 5 .read caller cb) := by
    intro io caller cb fd mask heq
    cases heq
  have hreport : ∀ io : IOManager Unit, (io.context 5).events.has .read = true →
      ReportsRegistered io readable := by
    rintro io hread fd mask heq event
    cases heq
    exact collected_readable hread
  have hcall := Run.nil.snoc (hadd (IOManager.init ()) ⟨some 0, 1, true⟩ (some 7))
    (show IOManager.step willingCtl _ _ = .ok (_, _) from rfl)
  have hcalled := hcall.snoc (hreport _ rfl) rfl
  have hwait := hcalled.snoc (hadd _ ⟨some 0, 1, true⟩ none) rfl
  have hrun := hwait.snoc (hreport _ rfl) rfl
  refine ⟨_, _, hrun, rfl, ?_⟩
  intro hanswered
  obtain ⟨front, last, hfront, hlast⟩ := hanswered.handed
    [.supplied (.callback 7), .handed (some (.callback 7)), .supplied (.fiber 1)] _ [] rfl
  have hsupplied : Entry.supplied (Task.fiber 1) = .supplied last := by
    have hgetLast := congrArg List.getLast? hfront
    rw [List.getLast?_concat] at hgetLast
    exact Option.some.inj hgetLast
  cases hsupplied
  cases hlast

end Cczoe.Scheduler
