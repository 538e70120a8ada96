import Cczoe.Foundations.GuardedRuns
import Cczoe.Scheduler.EventTableLaws

/-!
# The interest list of the kernel

The kernel is taken as the interest list that `epoll_ctl` describes: a partial map from descriptors
to masks, on which ADD fails exactly when the descriptor is present, and MOD and DEL exactly when it
is absent. The constructor of `IOManager` has added `m_tickleFds[0]` to it.

Along every run, the list holds each other descriptor exactly when a READ or WRITE bit of its
context is set, under the mask of these bits, so no `epoll_ctl` call on such a descriptor fails
(`kernel_eq_watched`). `m_tickleFds[0]` itself is present while its context has no bit set
(`tickle_is_present`).
-/

set_option autoImplicit false
set_option relaxedAutoImplicit false

namespace Cczoe.Scheduler

open Foundations

/-- The descriptors the kernel watches, with their masks. -/
abbrev InterestList := Fd → Option Events

/-- `epoll_ctl` on an interest list. -/
def InterestList.ctl (list : InterestList) (op : CtlOp) (fd : Fd) (events : Events) :
    Bool × InterestList :=
  match op, list fd with
  | .add, none => (true, Function.update list fd (some events))
  | .mod, some _ => (true, Function.update list fd (some events))
  | .del, some _ => (true, Function.update list fd none)
  | .add, some _ => (false, list)
  | .mod, none => (false, list)
  | .del, none => (false, list)

/-- The list that the constructor leaves: `m_tickleFds[0]`, for EPOLLIN. -/
def InterestList.constructed (tickle : Fd) : InterestList :=
  Function.update (fun _ ↦ none) tickle (some ⟨true, false⟩)

/-- `ctl`, with every call reported as a success. -/
def granting {κ : Type} (ctl : κ → CtlOp → Fd → Events → Bool × κ) :
    κ → CtlOp → Fd → Events → Bool × κ :=
  fun kernel op fd events ↦ (true, (ctl kernel op fd events).2)

/-- What the list is to hold for a context with these bits set. -/
def watched (events : Events) : Option Events :=
  if events = Events.empty then none else some events

/-! ### One call -/

section Calls

variable {list : InterestList} {op : CtlOp} {fd : Fd} {old new : Events}

/-- Assumes: the list holds the bits set, and ADD is called just when there are none. The call is
granted. -/
theorem ctl_granted (hlist : list fd = watched old) (hadd : op = .add ↔ old = Events.empty)
    (events : Events) : InterestList.ctl list op fd events =
      (true, Function.update list fd (if op = .del then none else some events)) := by
  unfold watched at hlist
  by_cases hempty : old = Events.empty
  · rw [if_pos hempty] at hlist
    obtain rfl := hadd.mpr hempty
    simp only [InterestList.ctl, hlist]
    rfl
  · rw [if_neg hempty] at hlist
    have hne : op ≠ .add := fun heq ↦ hempty (hadd.mp heq)
    cases op with
    | add => exact absurd rfl hne
    | mod =>
      simp only [InterestList.ctl, hlist]
      rfl
    | del =>
      simp only [InterestList.ctl, hlist]
      rfl

/-- Assumes, also: DEL is called just when no bit is left. The list holds the new bits. -/
theorem ctl_moves (hlist : list fd = watched old) (hadd : op = .add ↔ old = Events.empty)
    (hdel : op = .del ↔ new = Events.empty) :
    InterestList.ctl list op fd new = (true, Function.update list fd (watched new)) := by
  rw [ctl_granted hlist hadd, watched]
  simp only [hdel]

theorem ctlFor_eq_add_iff (hold : old ≠ Events.empty) (new : Events) :
    Locked.ctlFor new = .add ↔ old = Events.empty := by
  refine ⟨?_, fun heq ↦ absurd heq hold⟩
  unfold Locked.ctlFor
  split_ifs <;> exact nofun

theorem del_eq_add_iff (hold : old ≠ Events.empty) : CtlOp.del = .add ↔ old = Events.empty :=
  ⟨fun heq ↦ absurd heq (by decide), fun heq ↦ absurd heq hold⟩

theorem ctlFor_eq_del_iff : Locked.ctlFor new = .del ↔ new = Events.empty := by
  unfold Locked.ctlFor
  split_ifs with hempty
  · exact ⟨fun _ ↦ hempty, fun _ ↦ rfl⟩
  · exact ⟨nofun, fun heq ↦ absurd heq hempty⟩

theorem addOp_iff (hop : op = if old = Events.empty then CtlOp.add else CtlOp.mod) :
    (op = .add ↔ old = Events.empty) ∧ op ≠ .del := by
  by_cases hempty : old = Events.empty
  · rw [if_pos hempty] at hop
    rw [hop]
    exact ⟨⟨fun _ ↦ hempty, fun _ ↦ rfl⟩, nofun⟩
  · rw [if_neg hempty] at hop
    rw [hop]
    exact ⟨⟨nofun, fun heq ↦ absurd heq hempty⟩, nofun⟩

end Calls

theorem ne_empty_of_has {events : Events} {event : Event} (hhas : events.has event = true) :
    events ≠ Events.empty := by
  rintro rfl
  cases event <;> cases hhas

theorem ne_empty_of_inter {events other : Events} (hsome : events.inter other ≠ Events.empty) :
    events ≠ Events.empty := by
  rintro rfl
  exact hsome rfl

/-- The bits that a sweep leaves. -/
theorem events_swept (read write : Bool) (ctx : FdContext) :
    (Locked.triggered write .write (Locked.triggered read .read ctx)).events =
      ctx.events.diff ⟨read, write⟩ := by
  cases read <;> cases write <;>
    simp [Locked.triggered, FdContext.events_release, Events.remove, Events.diff]

theorem diff_self (events : Events) : events.diff events = Events.empty := by
  simp [Events.diff, Events.empty]

/-! ### One action under the mutex -/

/-- What an action under the mutex has to keep: the list follows the bits of the context, and every
call succeeds. -/
structure Followed (fd : Fd) (s : Locked InterestList) (outcome : Outcome)
    (after : Locked InterestList) : Prop where
  kernel_eq : after.kernel = Function.update s.kernel fd (watched after.ctx.events)
  calls_ok : ∀ call ∈ outcome.ctls, call.ok = true

section LockedSteps

variable {fd : Fd} {s after : Locked InterestList} {outcome : Outcome}

/-- Assumes: the list holds the bits of the context. -/
theorem Followed.of_unchanged (hlist : s.kernel fd = watched s.ctx.events)
    (hnone : outcome.ctls = []) : Followed fd s outcome s := by
  refine ⟨?_, ?_⟩
  · rw [← hlist, Function.update_eq_self]
  · intro call hmem
    rw [hnone] at hmem
    exact absurd hmem List.not_mem_nil

/-- Assumes: a call that leaves the list with the bits of the context. -/
theorem Followed.of_call {op : CtlOp} {events : Events}
    (hctls : outcome.ctls = [⟨op, fd, events, true⟩])
    (hkernel : after.kernel = Function.update s.kernel fd (watched after.ctx.events)) :
    Followed fd s outcome after := by
  refine ⟨hkernel, ?_⟩
  intro call hmem
  rw [hctls] at hmem
  rw [List.mem_singleton.mp hmem]

/-- Assumes: the list holds the bits of the context. -/
theorem Followed.of_released {event : Event} {triggers : List Trigger} {eventCtx : EventContext}
    (hlist : s.kernel fd = watched s.ctx.events)
    (hreleased : Locked.Released InterestList.ctl fd event s triggers eventCtx outcome after) :
    Followed fd s outcome after := by
  rcases hreleased.cases with ⟨_, _, hnone, _, rfl⟩ | ⟨hhas, ok, kernel, hctl, hctls, hcases⟩
  · exact Followed.of_unchanged hlist hnone
  rw [ctl_moves hlist (ctlFor_eq_add_iff (ne_empty_of_has hhas) _) ctlFor_eq_del_iff] at hctl
  obtain ⟨rfl, rfl⟩ := Prod.mk.inj hctl
  rcases hcases with ⟨_, _, _, rfl⟩ | ⟨hfalse, _⟩
  · refine Followed.of_call hctls ?_
    rw [FdContext.events_release]
  · cases hfalse

/-- Assumes: the list holds the bits of the context. One action keeps what it has to. -/
theorem Followed.of_step {action : Action} (hlist : s.kernel action.fd = watched s.ctx.events)
    (hstep : Locked.step InterestList.ctl action s = .ok (outcome, after)) :
    Followed action.fd s outcome after := by
  cases action with
  | addEvent fd event caller cb =>
    simp only [Locked.step, Action.fd] at hstep hlist ⊢
    obtain ⟨_, op, ok, kernel, hop, hctl, houtcome, hcases⟩ := Locked.addEvent_cases hstep
    obtain ⟨hadd, hdel⟩ := addOp_iff hop
    rw [ctl_granted hlist hadd, if_neg hdel] at hctl
    obtain ⟨rfl, rfl⟩ := Prod.mk.inj hctl
    rcases hcases with ⟨_, hevent, rfl⟩ | ⟨hfalse, _⟩
    · refine Followed.of_call (by rw [houtcome]) ?_
      rw [FdContext.events_register, watched,
        if_neg (ne_empty_of_has (Events.has_insert_self hevent s.ctx.events))]
    · cases hfalse
  | delEvent fd event => exact Followed.of_released hlist (Locked.delEvent_cases hstep)
  | cancelEvent fd event => exact Followed.of_released hlist (Locked.cancelEvent_cases hstep)
  | cancelAll fd =>
    simp only [Locked.step, Action.fd] at hstep hlist ⊢
    obtain ⟨_, ⟨_, hnone, _, rfl⟩ | ⟨hsome, ok, kernel, hctl, hctls, hcases⟩⟩ :=
      Locked.cancelAll_cases hstep
    · exact Followed.of_unchanged hlist hnone
    have hdel : CtlOp.del = .del ↔ Events.empty = Events.empty := ⟨fun _ ↦ rfl, fun _ ↦ rfl⟩
    rw [ctl_moves hlist (del_eq_add_iff hsome) hdel] at hctl
    obtain ⟨rfl, rfl⟩ := Prod.mk.inj hctl
    rcases hcases with ⟨_, hswept, hkernel⟩ | ⟨hfalse, _⟩
    · have hevents : after.ctx.events = Events.empty := by
        rw [hswept.ctx_eq, events_swept]
        exact diff_self s.ctx.events
      refine Followed.of_call hctls ?_
      rw [hkernel, hevents]
    · cases hfalse
  | report fd mask =>
    simp only [Locked.step, Action.fd] at hstep hlist ⊢
    obtain ⟨_, ⟨_, hnone, _, rfl⟩ | ⟨hsome, ok, kernel, hctl, hctls, hswept, hkernel⟩⟩ :=
      Locked.report_cases hstep
    · exact Followed.of_unchanged hlist hnone
    rw [ctl_moves hlist (ctlFor_eq_add_iff (ne_empty_of_inter hsome) _) ctlFor_eq_del_iff] at hctl
    obtain ⟨rfl, rfl⟩ := Prod.mk.inj hctl
    refine Followed.of_call hctls ?_
    rw [hkernel, hswept.ctx_eq, events_swept]

/-- Assumes: the list holds the bits of the context. The call that an action makes is granted,
whether or not the action returns. -/
theorem locked_step_granting {action : Action} (hlist : s.kernel action.fd = watched s.ctx.events) :
    Locked.step InterestList.ctl action s = Locked.step (granting InterestList.ctl) action s := by
  have hgrant : ∀ {op : CtlOp}, (op = .add ↔ s.ctx.events = Events.empty) → ∀ events,
      InterestList.ctl s.kernel op action.fd events =
        granting InterestList.ctl s.kernel op action.fd events := by
    intro op hadd events
    rw [granting, ctl_granted hlist hadd]
  have hunregister : ∀ event, s.unregister InterestList.ctl action.fd event =
      s.unregister (granting InterestList.ctl) action.fd event := by
    intro event
    unfold Locked.unregister
    by_cases hhas : s.ctx.events.has event = true
    · have hcall := hgrant (ctlFor_eq_add_iff (ne_empty_of_has hhas) (s.ctx.events.remove event))
        (s.ctx.events.remove event)
      unfold Locked.ctlFor at hcall
      simp only [if_pos hhas, hcall]
    · rw [if_neg hhas, if_neg hhas]
  cases action with
  | addEvent fd event caller cb =>
    have hcall := hgrant (addOp_iff rfl).1 (s.ctx.events.insert event)
    simp only [Action.fd] at hcall
    simp only [Locked.step, Locked.addEvent, hcall]
  | delEvent fd event =>
    have hfront := hunregister event
    simp only [Action.fd] at hfront
    simp only [Locked.step, Locked.delEvent, hfront]
  | cancelEvent fd event =>
    have hfront := hunregister event
    simp only [Action.fd] at hfront
    simp only [Locked.step, Locked.cancelEvent, hfront]
  | cancelAll fd =>
    simp only [Locked.step, Locked.cancelAll]
    by_cases hempty : s.ctx.events = Events.empty
    · rw [if_pos hempty, if_pos hempty]
    · have hcall := hgrant (del_eq_add_iff hempty) Events.empty
      simp only [Action.fd] at hcall
      simp only [if_neg hempty, hcall]
  | report fd mask =>
    simp only [Locked.step, Locked.report]
    by_cases hnone : s.ctx.events.inter mask.collected = Events.empty
    · rw [if_pos hnone, if_pos hnone]
    · have hcall := hgrant
        (ctlFor_eq_add_iff (ne_empty_of_inter hnone) (s.ctx.events.diff mask.collected))
        (s.ctx.events.diff mask.collected)
      unfold Locked.ctlFor at hcall
      simp only [Action.fd] at hcall
      simp only [if_neg hnone, hcall]

/-- Assumes: a descriptor that is present while no bit of its context is set. Nothing changes:
`addEvent` calls ADD, which fails, and the other operations call nothing. -/
theorem locked_step_present {action : Action} {mask : Events}
    (hlist : s.kernel action.fd = some mask) (hempty : s.ctx.events = Events.empty)
    (hstep : Locked.step InterestList.ctl action s = .ok (outcome, after)) :
    after.ctx = s.ctx ∧ after.kernel = s.kernel := by
  have hhas : ∀ event, s.ctx.events.has event = true → False :=
    fun event hhas ↦ ne_empty_of_has hhas hempty
  cases action with
  | addEvent fd event caller cb =>
    simp only [Locked.step, Action.fd] at hstep hlist
    obtain ⟨_, op, ok, kernel, hop, hctl, _, hcases⟩ := Locked.addEvent_cases hstep
    rw [if_pos hempty] at hop
    simp only [hop, InterestList.ctl, hlist] at hctl
    obtain ⟨rfl, rfl⟩ := Prod.mk.inj hctl
    rcases hcases with ⟨hfalse, _⟩ | ⟨_, rfl⟩
    · cases hfalse
    · exact ⟨rfl, rfl⟩
  | delEvent fd event =>
    simp only [Locked.step] at hstep
    rcases (Locked.delEvent_cases hstep).cases with ⟨_, _, _, _, rfl⟩ | ⟨hset, _⟩
    · exact ⟨rfl, rfl⟩
    · exact (hhas event hset).elim
  | cancelEvent fd event =>
    simp only [Locked.step] at hstep
    rcases (Locked.cancelEvent_cases hstep).cases with ⟨_, _, _, _, rfl⟩ | ⟨hset, _⟩
    · exact ⟨rfl, rfl⟩
    · exact (hhas event hset).elim
  | cancelAll fd =>
    simp only [Locked.step] at hstep
    obtain ⟨_, ⟨_, _, _, rfl⟩ | ⟨hsome, _⟩⟩ := Locked.cancelAll_cases hstep
    · exact ⟨rfl, rfl⟩
    · exact absurd hempty hsome
  | report fd mask =>
    simp only [Locked.step] at hstep
    obtain ⟨_, ⟨_, _, _, rfl⟩ | ⟨hsome, _⟩⟩ := Locked.report_cases hstep
    · exact ⟨rfl, rfl⟩
    · exact absurd hempty (ne_empty_of_inter hsome)

end LockedSteps

/-! ### Runs -/

/-- The list and the table agree, but for the tickle descriptor, which is present and unused. -/
structure Mirrored (tickle : Fd) (io : IOManager InterestList) : Prop where
  kernel_eq : ∀ fd, fd ≠ tickle → io.kernel fd = watched (io.context fd).events
  tickle_present : io.kernel tickle = some ⟨true, false⟩
  tickle_unused : (io.context tickle).events = Events.empty

theorem mirrored_init (tickle : Fd) :
    Mirrored tickle (IOManager.init (InterestList.constructed tickle)) := by
  refine ⟨?_, ?_, rfl⟩
  · intro fd hfd
    simp only [IOManager.init, InterestList.constructed, Function.update_of_ne hfd]
    rfl
  · simp only [IOManager.init, InterestList.constructed, Function.update_self]

/-- One action keeps the agreement, and its calls succeed on every other descriptor. -/
theorem Mirrored.step {tickle : Fd} {io next : IOManager InterestList} {action : Action}
    {outcome : Outcome} (hmirrored : Mirrored tickle io)
    (hstep : IOManager.step InterestList.ctl action io = .ok (outcome, next)) :
    Mirrored tickle next ∧ (action.fd ≠ tickle → ∀ call ∈ outcome.ctls, call.ok = true) := by
  rcases IOManager.step_view hstep with ⟨_, rfl, rfl⟩ | ⟨after, hlocked, htouched⟩
  · exact ⟨hmirrored, fun _ _ hmem ↦ absurd hmem List.not_mem_nil⟩
  by_cases htickle : action.fd = tickle
  · obtain ⟨hctx, hkernel⟩ := locked_step_present
      (s := ⟨io.context action.fd, io.kernel, io.pending⟩) (htickle ▸ hmirrored.tickle_present)
      (htickle ▸ hmirrored.tickle_unused) hlocked
    refine ⟨⟨?_, ?_, ?_⟩, fun hne ↦ absurd htickle hne⟩
    · intro fd hfd
      rw [htouched.kernel_eq, hkernel, htouched.context_other fd (htickle ▸ hfd)]
      exact hmirrored.kernel_eq fd hfd
    · rw [htouched.kernel_eq, hkernel]
      exact hmirrored.tickle_present
    · rw [← htickle, htouched.context_self, hctx, htickle]
      exact hmirrored.tickle_unused
  · obtain ⟨hkernel, hcalls⟩ := Followed.of_step
      (s := ⟨io.context action.fd, io.kernel, io.pending⟩)
      (hmirrored.kernel_eq action.fd htickle) hlocked
    have hother : tickle ≠ action.fd := fun heq ↦ htickle heq.symm
    refine ⟨⟨?_, ?_, ?_⟩, fun _ ↦ hcalls⟩
    · intro fd hfd
      rw [htouched.kernel_eq, hkernel]
      by_cases hself : fd = action.fd
      · rw [hself, Function.update_self, htouched.context_self]
      · rw [Function.update_of_ne hself, htouched.context_other fd hself]
        exact hmirrored.kernel_eq fd hfd
    · rw [htouched.kernel_eq, hkernel, Function.update_of_ne hother]
      exact hmirrored.tickle_present
    · rw [htouched.context_other tickle hother]
      exact hmirrored.tickle_unused

/-- Along every run, for every descriptor but `m_tickleFds[0]`: the kernel watches it just when a
bit of its context is set, under the mask of these bits; every `epoll_ctl` call on it has succeeded;
and the next action on it, whatever it is and whether or not it returns, goes as if no call could
fail. -/
theorem kernel_eq_watched (tickle : Fd) {trace : List (Action × Outcome)}
    {final : IOManager InterestList}
    (hrun : Run (IOManager.step InterestList.ctl) (fun _ _ ↦ True)
      (IOManager.init (InterestList.constructed tickle)) trace final) :
    (∀ fd, fd ≠ tickle → final.kernel fd = watched (final.context fd).events) ∧
    (∀ entry ∈ trace, entry.1.fd ≠ tickle → ∀ call ∈ entry.2.ctls, call.ok = true) ∧
    ∀ action, action.fd ≠ tickle → IOManager.step InterestList.ctl action final =
      IOManager.step (granting InterestList.ctl) action final := by
  have hkeeps : ∀ (now : IOManager InterestList) (action : Action) (outcome : Outcome)
      (next : IOManager InterestList), Mirrored tickle now → True →
      IOManager.step InterestList.ctl action now = .ok (outcome, next) →
      Mirrored tickle next ∧ (action.fd ≠ tickle → ∀ call ∈ outcome.ctls, call.ok = true) :=
    fun _ _ _ _ hnow _ hstep ↦ hnow.step hstep
  obtain ⟨hmirrored, hcalls⟩ := hrun.invariant (mirrored_init tickle) hkeeps
  refine ⟨hmirrored.kernel_eq, hcalls, ?_⟩
  intro action hfd
  exact IOManager.step_congr (locked_step_granting (hmirrored.kernel_eq action.fd hfd))

/-! ### The tickle descriptor -/

/-- Fiber `1` of scheduler `0` begins to wait for descriptor `8`. -/
def awaitEight : Action := .addEvent 8 .read ⟨some 0, 1, true⟩ none

/-- The table after that, of a manager whose tickle descriptor is `4`. -/
theorem step_awaitEight : ∃ outcome final,
    IOManager.step InterestList.ctl awaitEight (IOManager.init (InterestList.constructed 4)) =
      .ok (outcome, final) ∧
    final.contexts.length = 12 ∧ final.kernel 8 = some ⟨true, false⟩ ∧
    final.kernel 4 = some ⟨true, false⟩ ∧ (final.context 4).events = Events.empty ∧
    ∃ refusal, IOManager.step InterestList.ctl (.addEvent 4 .read ⟨some 0, 2, true⟩ none) final =
        .ok (refusal, final) ∧ refusal.ctls = [⟨.add, 4, ⟨true, false⟩, false⟩] :=
  ⟨_, _, rfl, rfl, rfl, rfl, rfl, _, rfl, rfl⟩

/-- The kernel watches descriptor `8` while a fiber waits to read from it. -/
theorem kernel_eq_watched_reader :
    ∃ trace final, Run (IOManager.step InterestList.ctl) (fun _ _ ↦ True)
        (IOManager.init (InterestList.constructed 4)) trace final ∧
      final.kernel 8 = some ⟨true, false⟩ ∧
      final.kernel 8 = watched (final.context 8).events := by
  obtain ⟨outcome, final, hstep, _, hkernel, _⟩ := step_awaitEight
  have hrun : Run (IOManager.step InterestList.ctl) (fun _ _ ↦ True)
      (IOManager.init (InterestList.constructed 4)) _ final := Run.nil.snoc trivial hstep
  exact ⟨_, final, hrun, hkernel, (kernel_eq_watched 4 hrun).1 8 (by decide)⟩

/-- The kernel watches the tickle descriptor `4`, whose context is in the table with no bit set, and
`addEvent` on it calls ADD, which fails. -/
theorem tickle_is_present :
    ∃ trace final, Run (IOManager.step InterestList.ctl) (fun _ _ ↦ True)
        (IOManager.init (InterestList.constructed 4)) trace final ∧
      4 < final.contexts.length ∧ final.kernel 4 ≠ none ∧
      (final.context 4).events = Events.empty ∧
      ∃ outcome next, IOManager.step InterestList.ctl (.addEvent 4 .read ⟨some 0, 2, true⟩ none)
          final = .ok (outcome, next) ∧ ∃ call ∈ outcome.ctls, call.ok = false := by
  obtain ⟨outcome, final, hstep, hlength, _, hpresent, hunused, refusal, hrefused, hctls⟩ :=
    step_awaitEight
  refine ⟨_, final, Run.nil.snoc trivial hstep, by rw [hlength]; decide, ?_, hunused, refusal,
    final, hrefused, ⟨.add, 4, ⟨true, false⟩, false⟩, ?_, rfl⟩
  · rw [hpresent]
    exact Option.some_ne_none _
  · rw [hctls]
    exact List.mem_singleton_self _

end Cczoe.Scheduler
