import Cczoe.Foundations.GuardedRuns
import Cczoe.Foundations.Ledger
import Cczoe.Scheduler.EventTableLaws
import Cczoe.Scheduler.Workers

/-!
# When a fiber is resumed

A fiber that waits for an event calls `addEvent` and then `yield`. It is to be resumed only after it
has yielded, never while it is RUNNING on another worker.

This holds along every run in which each fiber handed to `schedule` is at rest at that moment: not
RUNNING, not in `m_tasks` and not taken by a worker (`resumed_after_pause`). Nothing in the code
sees to that. The event that a fiber has registered can be triggered before the fiber yields;
`schedule` logs that the fiber is RUNNING and queues it all the same, and the worker that takes it
resumes it on the stack it is running on (`running_fiber_resumed`).
-/

set_option autoImplicit false
set_option relaxedAutoImplicit false

namespace Cczoe.Scheduler

open Foundations Foundations.Ledger

/-! ### What an action on the event table hands over -/

/-- The events that an action triggers unless the kernel refuses. -/
def dueEvents (ctx : FdContext) : Action → List Event
  | .addEvent _ _ _ _ | .delEvent _ _ => []
  | .cancelEvent _ event => if ctx.events.has event then [event] else []
  | .cancelAll _ => [Event.read, Event.write].filter ctx.events.has
  | .report _ mask =>
    if ctx.events.inter mask.collected = Events.empty then []
    else [Event.read, Event.write].filter mask.collected.has

/-- The tasks in the event contexts of these events. -/
def dueTasks (ctx : FdContext) (action : Action) : List Task :=
  (dueEvents ctx action).filterMap fun event ↦ (ctx.slot event).task

/-- The fibers among tasks. -/
def fibersOf (tasks : List Task) : List ℕ :=
  tasks.filterMap fun
    | .callback _ => none
    | .fiber fiber => some fiber

section Handed

variable {κ : Type} {ctl : κ → CtlOp → Fd → Events → Bool × κ}

/-- The tasks of a sweep. -/
theorem tasksOf_swept (due : Events) (ctx : FdContext) :
    tasksOf (Locked.triggersOf due.read .read ctx ++
        Locked.triggersOf due.write .write (Locked.triggered due.read .read ctx)) =
      ([Event.read, Event.write].filter due.has).filterMap fun event ↦ (ctx.slot event).task := by
  obtain ⟨read, write⟩ := due
  cases read <;> cases write <;> rfl

/-- An action under the mutex hands over the tasks that are due, or none. -/
theorem locked_step_tasks {action : Action} {s after : Locked κ} {outcome : Outcome}
    (hstep : Locked.step ctl action s = .ok (outcome, after)) :
    tasksOf outcome.triggers = [] ∨ tasksOf outcome.triggers = dueTasks s.ctx action := by
  have hnil : outcome.triggers = [] → tasksOf outcome.triggers = [] := by
    intro hnone
    rw [hnone]
    rfl
  cases action with
  | addEvent fd event caller cb =>
    obtain ⟨_, _, _, _, _, _, houtcome, _⟩ := Locked.addEvent_cases hstep
    exact Or.inl (hnil (by rw [houtcome]))
  | delEvent fd event => exact Or.inl (hnil (Locked.triggers_delEvent hstep))
  | cancelEvent fd event =>
    rcases (Locked.cancelEvent_cases hstep).cases with ⟨_, _, _, hnone, _⟩ |
      ⟨hhas, _, _, _, _, ⟨_, _, htriggers, _⟩ | ⟨_, _, hnone, _⟩⟩
    · exact Or.inl (hnil hnone)
    · right
      rw [htriggers, dueTasks, dueEvents, if_pos hhas]
      rfl
    · exact Or.inl (hnil hnone)
  | cancelAll fd =>
    obtain ⟨_, ⟨_, _, hnone, _⟩ | ⟨_, _, _, _, _, ⟨_, hswept, _⟩ | ⟨_, hnone, _⟩⟩⟩ :=
      Locked.cancelAll_cases hstep
    · exact Or.inl (hnil hnone)
    · right
      rw [hswept.triggers_eq, tasksOf_swept]
      rfl
    · exact Or.inl (hnil hnone)
  | report fd mask =>
    obtain ⟨_, ⟨_, _, hnone, _⟩ | ⟨hsome, _, _, _, _, hswept, _⟩⟩ := Locked.report_cases hstep
    · exact Or.inl (hnil hnone)
    · right
      rw [hswept.triggers_eq, tasksOf_swept, dueTasks, dueEvents, if_neg hsome]

/-- The tasks that an action hands over are those due in the context of its descriptor, or none. -/
theorem step_tasks {io next : IOManager κ} {action : Action} {outcome : Outcome}
    (hstep : IOManager.step ctl action io = .ok (outcome, next)) :
    tasksOf outcome.triggers = [] ∨
      tasksOf outcome.triggers = dueTasks (io.context action.fd) action := by
  rcases IOManager.step_view hstep with ⟨_, rfl, _⟩ | ⟨_, hlocked, _⟩
  · exact Or.inl rfl
  · exact locked_step_tasks hlocked

end Handed

/-! ### The fibers that wait -/

/-- All fibers in a context meet a condition, also those left there by events that are no longer
registered. -/
def EachWaiting (condition : ℕ → Prop) (ctx : FdContext) : Prop :=
  ∀ event fiber, (ctx.slot event).fiber = some fiber → condition fiber

/-- The fiber that an action may put into a context meets a condition. -/
def CallerMeets (condition : ℕ → Prop) : Action → Prop
  | .addEvent _ _ caller _ => condition caller.fiber
  | .delEvent _ _ | .cancelEvent _ _ | .cancelAll _ | .report _ _ => True

section Waiting

variable {κ : Type} {ctl : κ → CtlOp → Fd → Events → Bool × κ} {condition : ℕ → Prop}
  {ctx : FdContext}

/-- Assumes: a context that differs from another in the event context of one event. -/
theorem EachWaiting.of_slots {after : FdContext} {event : Event} {eventCtx : EventContext}
    (heach : EachWaiting condition ctx)
    (hself : event ≠ .none → after.slot event = eventCtx)
    (hother : ∀ other, other ≠ event → after.slot other = ctx.slot other)
    (hnew : ∀ fiber, eventCtx.fiber = some fiber → condition fiber) :
    EachWaiting condition after := by
  intro other fiber hfiber
  by_cases hevent : other = event
  · subst hevent
    by_cases hnone : other = .none
    · rw [hnone] at hfiber
      cases hfiber
    · rw [hself hnone] at hfiber
      exact hnew fiber hfiber
  · rw [hother other hevent] at hfiber
    exact heach other fiber hfiber

theorem EachWaiting.release {event : Event} {eventCtx : EventContext}
    (heach : EachWaiting condition ctx)
    (hnew : ∀ fiber, eventCtx.fiber = some fiber → condition fiber) :
    EachWaiting condition (ctx.release event eventCtx) :=
  heach.of_slots (fun hevent ↦ FdContext.slot_release_self hevent ctx eventCtx)
    (fun _ hne ↦ FdContext.slot_release_of_ne hne ctx eventCtx) hnew

theorem EachWaiting.triggered (heach : EachWaiting condition ctx) (due : Bool) (event : Event) :
    EachWaiting condition (Locked.triggered due event ctx) := by
  cases due with
  | false => exact heach
  | true => exact heach.release (heach event)

theorem EachWaiting.swept {read write : Bool} {s after : Locked κ} {outcome : Outcome}
    (heach : EachWaiting condition s.ctx) (hswept : Locked.Swept read write s outcome after) :
    EachWaiting condition after.ctx := by
  rw [hswept.ctx_eq]
  exact (heach.triggered read .read).triggered write .write

theorem EachWaiting.released {fd : Fd} {event : Event} {triggers : List Trigger}
    {eventCtx : EventContext} {s after : Locked κ} {outcome : Outcome}
    (heach : EachWaiting condition s.ctx)
    (hnew : ∀ fiber, eventCtx.fiber = some fiber → condition fiber)
    (hreleased : Locked.Released ctl fd event s triggers eventCtx outcome after) :
    EachWaiting condition after.ctx := by
  rcases hreleased.cases with ⟨_, _, _, _, rfl⟩ | ⟨_, _, _, _, _, ⟨_, _, _, rfl⟩ | ⟨_, _, _, rfl⟩⟩
  · exact heach
  · exact heach.release hnew
  · exact heach

/-- An action under the mutex only puts its caller into a context. -/
theorem EachWaiting.locked_step {action : Action} {s after : Locked κ} {outcome : Outcome}
    (heach : EachWaiting condition s.ctx) (hcaller : CallerMeets condition action)
    (hstep : Locked.step ctl action s = .ok (outcome, after)) :
    EachWaiting condition after.ctx := by
  cases action with
  | addEvent fd event caller cb =>
    obtain ⟨_, _, _, _, _, _, _, ⟨_, _, rfl⟩ | ⟨_, rfl⟩⟩ := Locked.addEvent_cases hstep
    · refine heach.of_slots (fun hevent ↦ FdContext.slot_register_self hevent s.ctx _)
        (fun _ hne ↦ FdContext.slot_register_of_ne hne s.ctx _) ?_
      intro fiber hfiber
      cases cb with
      | some cb => exact heach event fiber hfiber
      | none =>
        obtain rfl : caller.fiber = fiber := Option.some.inj hfiber
        exact hcaller
    · exact heach
  | delEvent fd event =>
    refine heach.released ?_ (Locked.delEvent_cases hstep)
    intro fiber hfiber
    cases hfiber
  | cancelEvent fd event =>
    refine heach.released ?_ (Locked.cancelEvent_cases hstep)
    exact heach event
  | cancelAll fd =>
    obtain ⟨_, ⟨_, _, _, rfl⟩ | ⟨_, _, _, _, _, ⟨_, hswept, _⟩ | ⟨_, _, rfl⟩⟩⟩ :=
      Locked.cancelAll_cases hstep
    · exact heach
    · exact heach.swept hswept
    · exact heach
  | report fd mask =>
    obtain ⟨_, ⟨_, _, _, rfl⟩ | ⟨_, _, _, _, _, hswept, _⟩⟩ := Locked.report_cases hstep
    · exact heach
    · exact heach.swept hswept

/-- So does an action on the table. -/
theorem eachWaiting_step {io next : IOManager κ} {action : Action} {outcome : Outcome}
    (heach : ∀ fd, EachWaiting condition (io.context fd)) (hcaller : CallerMeets condition action)
    (hstep : IOManager.step ctl action io = .ok (outcome, next)) (fd : Fd) :
    EachWaiting condition (next.context fd) := by
  rcases IOManager.step_view hstep with ⟨_, _, rfl⟩ | ⟨after, hlocked, htouched⟩
  · exact heach fd
  by_cases hfd : fd = action.fd
  · rw [hfd, htouched.context_self]
    exact EachWaiting.locked_step (s := ⟨io.context action.fd, io.kernel, io.pending⟩)
      (heach action.fd) hcaller hlocked
  · rw [htouched.context_other fd hfd]
    exact heach fd

end Waiting

theorem fiber_of_task {eventCtx : EventContext} {fiber : ℕ}
    (htask : eventCtx.task = some (.fiber fiber)) : eventCtx.fiber = some fiber := by
  unfold EventContext.task at htask
  cases hcb : eventCtx.cb with
  | some cb =>
    rw [hcb] at htask
    cases htask
  | none =>
    rw [hcb] at htask
    obtain ⟨other, hother, heq⟩ := Option.map_eq_some_iff.mp htask
    rw [hother, Task.fiber.inj heq]

theorem mem_fibersOf {tasks : List Task} {fiber : ℕ} :
    fiber ∈ fibersOf tasks ↔ Task.fiber fiber ∈ tasks := by
  unfold fibersOf
  rw [List.mem_filterMap]
  constructor
  · rintro ⟨task, hmem, heq⟩
    cases task with
    | callback cb => cases heq
    | fiber other =>
      obtain rfl : other = fiber := Option.some.inj heq
      exact hmem
  · intro hmem
    exact ⟨_, hmem, rfl⟩

/-- The fibers that are due wait in the context. -/
theorem meets_of_due {condition : ℕ → Prop} {ctx : FdContext} {action : Action} {fiber : ℕ}
    (heach : EachWaiting condition ctx) (hdue : fiber ∈ fibersOf (dueTasks ctx action)) :
    condition fiber := by
  obtain ⟨event, _, htask⟩ := List.mem_filterMap.mp (mem_fibersOf.mp hdue)
  exact heach event fiber (fiber_of_task htask)

/-! ### Where the fibers are -/

/-- The fiber that a worker has taken. -/
def Worker.fiber : Worker → Option ℕ
  | .holding fiber | .running fiber => some fiber
  | .looking | .idle => none

/-- A fiber that may be scheduled: it is not RUNNING, not queued and not taken by a worker that has
yet to resume it. -/
def Resting {κ : Type} (s : System κ) (fiber : ℕ) : Prop :=
  s.fibers[fiber]? ≠ some .running ∧ fiber ∉ s.tasks ∧ ∀ worker, s.workers worker ≠ .holding fiber

/-- Tasks that may be scheduled one after the other. -/
def MayHand {κ : Type} (s : System κ) (tasks : List Task) : Prop :=
  (fibersOf tasks).Nodup ∧ ∀ fiber ∈ fibersOf tasks, Resting s fiber

/-- The condition on a move: all fibers it hands to `schedule` are at rest. -/
def Settled {κ : Type} (s : System κ) : Move → Prop
  | .schedule task => MayHand s [task]
  | .call worker action => ∀ performed, s.performed worker action = some performed →
      MayHand s (dueTasks (s.io.context performed.fd) performed)
  | .take _ | .resume _ | .yield _ | .finish _ | .leave _ => True

/-- Every fiber is in one place: queued, or with one worker; and it is RUNNING just when it runs on
a worker. -/
structure Placed {κ : Type} (s : System κ) : Prop where
  tasks_nodup : s.tasks.Nodup
  tasks_made : ∀ fiber ∈ s.tasks, fiber < s.fibers.length
  taken_made : ∀ worker fiber, (s.workers worker).fiber = some fiber → fiber < s.fibers.length
  taken_not_queued : ∀ worker fiber, (s.workers worker).fiber = some fiber → fiber ∉ s.tasks
  taken_once : ∀ first second fiber, (s.workers first).fiber = some fiber →
    (s.workers second).fiber = some fiber → first = second
  running_iff : ∀ fiber,
    s.fibers[fiber]? = some .running ↔ ∃ worker, s.workers worker = .running fiber
  waiting_made : ∀ fd, EachWaiting (fun fiber ↦ fiber < s.fibers.length) (s.io.context fd)

section Places

variable {κ : Type} {s : System κ}

theorem placed_init (kernel : κ) : Placed (System.init kernel) where
  tasks_nodup := List.nodup_nil
  tasks_made := fun _ hmem ↦ absurd hmem List.not_mem_nil
  taken_made := fun _ _ htaken ↦ nomatch htaken
  taken_not_queued := fun _ _ htaken ↦ nomatch htaken
  taken_once := fun _ _ _ htaken ↦ nomatch htaken
  running_iff := by
    intro fiber
    constructor
    · exact nofun
    · rintro ⟨worker, hworker⟩
      cases hworker
  waiting_made := by
    intro fd event fiber hfiber
    cases event <;> cases hfiber

/-- A fiber that a worker is about to resume is not RUNNING. -/
theorem Placed.held_not_running (hplaced : Placed s) {worker fiber : ℕ}
    (hheld : s.workers worker = .holding fiber) : s.fibers[fiber]? ≠ some .running := by
  intro hrunning
  obtain ⟨other, hother⟩ := (hplaced.running_iff fiber).mp hrunning
  have hsame : worker = other :=
    hplaced.taken_once worker other fiber (by rw [hheld]; rfl) (by rw [hother]; rfl)
  rw [← hsame, hheld] at hother
  cases hother

/-- A fiber at rest is with no worker. -/
theorem Placed.not_taken (hplaced : Placed s) {fiber : ℕ} (hresting : Resting s fiber)
    (worker : ℕ) : (s.workers worker).fiber ≠ some fiber := by
  intro htaken
  cases hworker : s.workers worker with
  | looking =>
    rw [hworker] at htaken
    cases htaken
  | idle =>
    rw [hworker] at htaken
    cases htaken
  | holding other =>
    rw [hworker] at htaken
    obtain rfl : other = fiber := Option.some.inj htaken
    exact hresting.2.2 worker hworker
  | running other =>
    rw [hworker] at htaken
    obtain rfl : other = fiber := Option.some.inj htaken
    exact hresting.1 ((hplaced.running_iff other).mpr ⟨worker, hworker⟩)

/-! ### Scheduling -/

/-- A fiber that is with no worker and not queued may be queued. -/
theorem Placed.enqueue (hplaced : Placed s) {fiber : ℕ} (hmade : fiber < s.fibers.length)
    (hqueued : fiber ∉ s.tasks) (htaken : ∀ worker, (s.workers worker).fiber ≠ some fiber) :
    Placed { s with tasks := s.tasks ++ [fiber] } := by
  refine ⟨?_, ?_, hplaced.taken_made, ?_, hplaced.taken_once, hplaced.running_iff,
    hplaced.waiting_made⟩
  · exact List.nodup_append.mpr ⟨hplaced.tasks_nodup, List.nodup_singleton fiber,
      fun first hfirst second hsecond heq ↦
        hqueued (List.mem_singleton.mp hsecond ▸ heq ▸ hfirst)⟩
  · intro other hmem
    rcases List.mem_append.mp hmem with hold | hnew
    · exact hplaced.tasks_made other hold
    · rw [List.mem_singleton.mp hnew]
      exact hmade
  · intro worker other hother hmem
    rcases List.mem_append.mp hmem with hold | hnew
    · exact hplaced.taken_not_queued worker other hother hold
    · rw [List.mem_singleton.mp hnew] at hother
      exact htaken worker hother

theorem getElem?_append_init (fibers : List FiberState) (fiber : ℕ) :
    (fibers ++ [FiberState.init])[fiber]? = some .running ↔ fibers[fiber]? = some .running := by
  by_cases hold : fiber < fibers.length
  · rw [List.getElem?_append_left hold]
  · rw [List.getElem?_append_right (Nat.le_of_not_lt hold),
      List.getElem?_eq_none (Nat.le_of_not_lt hold)]
    cases fiber - fibers.length with
    | zero => exact ⟨nofun, nofun⟩
    | succ n => exact ⟨nofun, nofun⟩

/-- A new fiber is in no place. -/
theorem Placed.make (hplaced : Placed s) : Placed { s with fibers := s.fibers ++ [.init] } := by
  have hlength : s.fibers.length ≤ (s.fibers ++ [FiberState.init]).length := by
    rw [List.length_append]
    exact Nat.le_add_right _ _
  refine ⟨hplaced.tasks_nodup, ?_, ?_, hplaced.taken_not_queued, hplaced.taken_once, ?_, ?_⟩
  · exact fun fiber hmem ↦ (hplaced.tasks_made fiber hmem).trans_le hlength
  · exact fun worker fiber htaken ↦ (hplaced.taken_made worker fiber htaken).trans_le hlength
  · exact fun fiber ↦ (getElem?_append_init s.fibers fiber).trans (hplaced.running_iff fiber)
  · exact fun fd event fiber hfiber ↦
      (hplaced.waiting_made fd event fiber hfiber).trans_le hlength

/-- Assumes: a fiber at rest, or a callback. -/
theorem Placed.schedule (hplaced : Placed s) {task : Task}
    (hresting : ∀ fiber, task = .fiber fiber → Resting s fiber) : Placed (s.schedule task) := by
  cases task with
  | callback cb =>
    refine hplaced.make.enqueue ?_ ?_ ?_
    · rw [List.length_append]
      exact Nat.lt_succ_self _
    · exact fun hmem ↦ Nat.lt_irrefl _ (hplaced.tasks_made _ hmem)
    · exact fun worker htaken ↦ Nat.lt_irrefl _ (hplaced.taken_made worker _ htaken)
  | fiber fiber =>
    unfold System.schedule
    by_cases hmade : fiber < s.fibers.length
    · simp only [if_pos hmade]
      exact hplaced.enqueue hmade (hresting fiber rfl).2.1 (hplaced.not_taken (hresting fiber rfl))
    · simp only [if_neg hmade]
      exact hplaced

/-- `schedule` leaves the workers alone and makes no fiber RUNNING. -/
theorem workers_schedule (s : System κ) (task : Task) : (s.schedule task).workers = s.workers := by
  cases task with
  | callback cb => rfl
  | fiber fiber =>
    unfold System.schedule
    by_cases hmade : fiber < s.fibers.length
    · simp only [if_pos hmade]
    · simp only [if_neg hmade]

theorem running_schedule (s : System κ) (task : Task) (fiber : ℕ) :
    (s.schedule task).fibers[fiber]? = some .running ↔ s.fibers[fiber]? = some .running := by
  cases task with
  | callback cb => exact getElem?_append_init s.fibers fiber
  | fiber other =>
    unfold System.schedule
    by_cases hmade : other < s.fibers.length
    · simp only [if_pos hmade]
    · simp only [if_neg hmade]

theorem running_scheduleAll (s : System κ) (tasks : List Task) (fiber : ℕ) :
    (s.scheduleAll tasks).fibers[fiber]? = some .running ↔ s.fibers[fiber]? = some .running := by
  induction tasks generalizing s with
  | nil => exact Iff.rfl
  | cons task tasks ih => exact (ih (s.schedule task)).trans (running_schedule s task fiber)

/-- Assumes: a fiber that was made and is at rest, and another task. It stays at rest while the
other task is scheduled. -/
theorem Resting.schedule {fiber : ℕ} (hresting : Resting s fiber) (hmade : fiber < s.fibers.length)
    {task : Task} (hother : task ≠ .fiber fiber) :
    Resting (s.schedule task) fiber ∧ fiber < (s.schedule task).fibers.length := by
  have hrunning : (s.schedule task).fibers[fiber]? ≠ some .running :=
    fun heq ↦ hresting.1 ((running_schedule s task fiber).mp heq)
  have hheld : ∀ worker, (s.schedule task).workers worker ≠ .holding fiber := by
    rw [workers_schedule]
    exact hresting.2.2
  cases task with
  | callback cb =>
    refine ⟨⟨hrunning, ?_, hheld⟩, ?_⟩
    · intro hmem
      rcases List.mem_append.mp hmem with hold | hnew
      · exact hresting.2.1 hold
      · exact Nat.ne_of_lt hmade (List.mem_singleton.mp hnew)
    · exact hmade.trans_le ((List.length_append).symm ▸ Nat.le_add_right _ _)
  | fiber other =>
    have hne : fiber ≠ other := fun heq ↦ hother (congrArg Task.fiber heq.symm)
    unfold System.schedule at hrunning hheld ⊢
    by_cases hexists : other < s.fibers.length
    · simp only [if_pos hexists] at hrunning hheld ⊢
      refine ⟨⟨hrunning, ?_, hheld⟩, hmade⟩
      intro hmem
      rcases List.mem_append.mp hmem with hold | hnew
      · exact hresting.2.1 hold
      · exact hne (List.mem_singleton.mp hnew)
    · simp only [if_neg hexists]
      exact ⟨hresting, hmade⟩

/-- Assumes: tasks that may be scheduled one after the other, of fibers that were made. -/
theorem Placed.scheduleAll (hplaced : Placed s) {tasks : List Task} (hmay : MayHand s tasks)
    (hmade : ∀ fiber ∈ fibersOf tasks, fiber < s.fibers.length) :
    Placed (s.scheduleAll tasks) := by
  induction tasks generalizing s with
  | nil => exact hplaced
  | cons task tasks ih =>
    obtain ⟨hnodup, hresting⟩ := hmay
    have hlater : ∀ fiber ∈ fibersOf tasks, fiber ∈ fibersOf (task :: tasks) := fun fiber hmem ↦
      mem_fibersOf.mpr (List.mem_cons_of_mem _ (mem_fibersOf.mp hmem))
    have hfirst : ∀ fiber, task = .fiber fiber → Resting s fiber := by
      rintro fiber rfl
      exact hresting fiber (mem_fibersOf.mpr List.mem_cons_self)
    have hother : ∀ fiber ∈ fibersOf tasks, task ≠ .fiber fiber := by
      rintro fiber hmem rfl
      exact (List.nodup_cons.mp hnodup).1 hmem
    have hrest : ∀ fiber ∈ fibersOf tasks,
        Resting (s.schedule task) fiber ∧ fiber < (s.schedule task).fibers.length :=
      fun fiber hmem ↦ (hresting fiber (hlater fiber hmem)).schedule
        (hmade fiber (hlater fiber hmem)) (hother fiber hmem)
    refine ih (hplaced.schedule hfirst) ⟨?_, fun fiber hmem ↦ (hrest fiber hmem).1⟩
      fun fiber hmem ↦ (hrest fiber hmem).2
    cases task with
    | callback cb => exact hnodup
    | fiber fiber => exact (List.nodup_cons.mp hnodup).2

end Places

/-! ### One move -/

section Moves

variable {κ : Type} {ctl : κ → CtlOp → Fd → Events → Bool × κ} {s next : System κ}

/-- The caller that `addEvent` finds is the fiber that runs on the worker. -/
theorem callerMeets_performed {worker : ℕ} {action performed : Action} {condition : ℕ → Prop}
    (htaken : ∀ fiber, s.workers worker = .running fiber → condition fiber)
    (hperformed : s.performed worker action = some performed) :
    CallerMeets condition performed := by
  unfold System.performed at hperformed
  cases hworker : s.workers worker with
  | looking =>
    rw [hworker] at hperformed
    cases hperformed
  | holding fiber =>
    rw [hworker] at hperformed
    cases hperformed
  | running fiber =>
    rw [hworker] at hperformed
    cases action with
    | addEvent fd event caller cb =>
      cases hperformed
      exact htaken fiber hworker
    | report fd mask => cases hperformed
    | _ =>
      cases hperformed
      trivial
  | idle =>
    rw [hworker] at hperformed
    cases action with
    | report fd mask =>
      cases hperformed
      trivial
    | _ => cases hperformed

/-- The turn that a fiber is in, when it is RUNNING. -/
def System.turn (s : System κ) (fiber : ℕ) : Option Unit :=
  if s.fibers[fiber]? = some .running then some () else none

/-- What a move enters for a fiber: a turn begins when it is resumed and ends when it pauses. -/
def turnEntries (fiber : ℕ) : Option Turn → List (Entry Unit)
  | none => []
  | some (.resumed other) => if other = fiber then [.supplied ()] else []
  | some (.paused other) => if other = fiber then [.withdrawn] else []

/-- What a move has to keep: every fiber is in one place, and turns begin and end as entered. -/
structure Moved (s : System κ) (turn : Option Turn) (next : System κ) : Prop where
  placed : Placed next
  leads : ∀ fiber, Leads (turnEntries fiber turn) (s.turn fiber) (next.turn fiber)

/-- Assumes: the same fibers are RUNNING. -/
theorem Moved.of_same (hplaced : Placed next)
    (hsame : ∀ fiber : ℕ, next.fibers[fiber]? = some .running ↔ s.fibers[fiber]? = some .running) :
    Moved s none next := by
  refine ⟨hplaced, ?_⟩
  intro fiber
  have hturn : next.turn fiber = s.turn fiber := by
    unfold System.turn
    simp only [hsame]
  rw [hturn]
  exact leads_nil _

/-- Assumes: a move that hands over fibers at rest only. -/
theorem Moved.of_act {worker : ℕ} {action performed : Action} {turn : Option Turn}
    (hplaced : Placed s) (hperformed : s.performed worker action = some performed)
    (hmay : MayHand s (dueTasks (s.io.context performed.fd) performed))
    (hact : s.act ctl performed = .ok (turn, next)) : Moved s turn next := by
  unfold System.act at hact
  cases hstep : IOManager.step ctl performed s.io with
  | error fault =>
    rw [hstep] at hact
    cases hact
  | ok result =>
    obtain ⟨outcome, io⟩ := result
    rw [hstep] at hact
    cases hact
    have hcaller := callerMeets_performed
      (fun fiber hworker ↦ hplaced.taken_made worker fiber (by rw [hworker]; rfl)) hperformed
    have hmoved : Placed { s with io := io } :=
      ⟨hplaced.tasks_nodup, hplaced.tasks_made, hplaced.taken_made, hplaced.taken_not_queued,
        hplaced.taken_once, hplaced.running_iff,
        eachWaiting_step hplaced.waiting_made hcaller hstep⟩
    refine Moved.of_same ?_ fun fiber ↦ running_scheduleAll { s with io := io } _ fiber
    rcases step_tasks hstep with hnone | hdue
    · rw [hnone]
      exact hmoved
    · rw [hdue]
      refine hmoved.scheduleAll hmay ?_
      intro fiber hfiber
      have hmade := meets_of_due (hplaced.waiting_made performed.fd) hfiber
      exact hmade

/-- Assumes: a worker that takes no other fiber, and fibers whose states go with that. -/
theorem Placed.change (hplaced : Placed s) {worker : ℕ} {after : Worker} {fibers : List FiberState}
    (hafter : ∀ fiber, after.fiber = some fiber → (s.workers worker).fiber = some fiber)
    (hlength : fibers.length = s.fibers.length)
    (hrunning : ∀ fiber, fibers[fiber]? = some .running ↔
      ∃ other, Function.update s.workers worker after other = .running fiber) :
    Placed ({ s with fibers := fibers }.setWorker worker after) := by
  have hsub : ∀ other fiber, (Function.update s.workers worker after other).fiber = some fiber →
      (s.workers other).fiber = some fiber := by
    intro other fiber htaken
    by_cases hother : other = worker
    · subst hother
      rw [Function.update_self] at htaken
      exact hafter fiber htaken
    · rw [Function.update_of_ne hother] at htaken
      exact htaken
  refine ⟨hplaced.tasks_nodup, ?_, ?_, ?_, ?_, hrunning, ?_⟩
  · exact fun fiber hmem ↦ (hplaced.tasks_made fiber hmem).trans_eq hlength.symm
  · exact fun other fiber htaken ↦
      (hplaced.taken_made other fiber (hsub other fiber htaken)).trans_eq hlength.symm
  · exact fun other fiber htaken ↦ hplaced.taken_not_queued other fiber (hsub other fiber htaken)
  · exact fun first second fiber hfirst hsecond ↦ hplaced.taken_once first second fiber
      (hsub first fiber hfirst) (hsub second fiber hsecond)
  · exact fun fd event fiber hfiber ↦
      (hplaced.waiting_made fd event fiber hfiber).trans_eq hlength.symm

/-- Assumes: a worker that runs no fiber before and after. The same fibers run. -/
theorem running_update_iff {workers : ℕ → Worker} {worker : ℕ} {after : Worker}
    (hbefore : ∀ fiber, workers worker ≠ .running fiber) (hafter : ∀ fiber, after ≠ .running fiber)
    (fiber : ℕ) : (∃ other, workers other = .running fiber) ↔
      ∃ other, Function.update workers worker after other = .running fiber := by
  constructor
  · rintro ⟨other, hother⟩
    have hne : other ≠ worker := by
      rintro rfl
      exact hbefore fiber hother
    exact ⟨other, by rw [Function.update_of_ne hne, hother]⟩
  · rintro ⟨other, hother⟩
    by_cases hworker : other = worker
    · rw [hworker, Function.update_self] at hother
      exact absurd hother (hafter fiber)
    · rw [Function.update_of_ne hworker] at hother
      exact ⟨other, hother⟩

/-- Assumes: a worker that has no fiber before and after. -/
theorem Moved.of_idle {worker : ℕ} {after : Worker} (hplaced : Placed s)
    (hbefore : (s.workers worker).fiber = none) (hafter : after.fiber = none) :
    Moved s none (s.setWorker worker after) := by
  refine Moved.of_same (hplaced.change ?_ rfl ?_) fun fiber ↦ Iff.rfl
  · intro fiber htaken
    rw [hafter] at htaken
    cases htaken
  · intro fiber
    rw [hplaced.running_iff]
    apply running_update_iff
    · intro other hruns
      rw [hruns] at hbefore
      cases hbefore
    · rintro other rfl
      cases hafter

/-- The first task goes from the queue to the worker. -/
theorem Moved.of_take {worker : ℕ} (hplaced : Placed s) (hlooking : s.workers worker = .looking) :
    Moved s none (s.take worker) := by
  unfold System.take
  cases htasks : s.tasks with
  | nil => exact Moved.of_idle hplaced (by rw [hlooking]; rfl) rfl
  | cons first rest =>
    have hfirst : first ∈ s.tasks := by
      rw [htasks]
      exact List.mem_cons_self
    have hrest : ∀ fiber ∈ rest, fiber ∈ s.tasks := by
      intro fiber hmem
      rw [htasks]
      exact List.mem_cons_of_mem _ hmem
    have hnodup := hplaced.tasks_nodup
    rw [htasks, List.nodup_cons] at hnodup
    change Moved s none ({ s with tasks := rest }.setWorker worker (.holding first))
    -- who has a fiber now: the worker has the first task, the others have what they had
    have htaken : ∀ other fiber,
        (Function.update s.workers worker (.holding first) other).fiber = some fiber →
        (other = worker ∧ fiber = first) ∨
          (other ≠ worker ∧ (s.workers other).fiber = some fiber) := by
      intro other fiber htaken
      by_cases hother : other = worker
      · rw [hother, Function.update_self] at htaken
        exact Or.inl ⟨hother, (Option.some.inj htaken).symm⟩
      · rw [Function.update_of_ne hother] at htaken
        exact Or.inr ⟨hother, htaken⟩
    have hnew : ∀ other, (s.workers other).fiber ≠ some first :=
      fun other heq ↦ hplaced.taken_not_queued other first heq hfirst
    refine Moved.of_same ⟨hnodup.2, ?_, ?_, ?_, ?_, ?_, hplaced.waiting_made⟩ fun fiber ↦ Iff.rfl
    · exact fun fiber hmem ↦ hplaced.tasks_made fiber (hrest fiber hmem)
    · intro other fiber hother
      rcases htaken other fiber hother with ⟨_, rfl⟩ | ⟨_, hold⟩
      · exact hplaced.tasks_made fiber hfirst
      · exact hplaced.taken_made other fiber hold
    · intro other fiber hother
      rcases htaken other fiber hother with ⟨_, rfl⟩ | ⟨_, hold⟩
      · exact hnodup.1
      · exact fun hmem ↦ hplaced.taken_not_queued other fiber hold (hrest fiber hmem)
    · intro one other fiber hone hother
      rcases htaken one fiber hone with ⟨rfl, rfl⟩ | ⟨_, hold⟩
      · rcases htaken other fiber hother with ⟨rfl, _⟩ | ⟨_, hold⟩
        · rfl
        · exact absurd hold (hnew other)
      · rcases htaken other fiber hother with ⟨_, rfl⟩ | ⟨_, hold'⟩
        · exact absurd hold (hnew one)
        · exact hplaced.taken_once one other fiber hold hold'
    · intro fiber
      refine (hplaced.running_iff fiber).trans (running_update_iff ?_ ?_ fiber)
      · intro other hruns
        rw [hlooking] at hruns
        cases hruns
      · exact fun other ↦ nofun

theorem running_set_iff {fibers : List FiberState} {fiber : ℕ} (hmade : fiber < fibers.length)
    (state : FiberState) (other : ℕ) :
    (fibers.set fiber state)[other]? = some .running ↔
      (other = fiber ∧ state = .running) ∨ (other ≠ fiber ∧ fibers[other]? = some .running) := by
  by_cases hother : other = fiber
  · subst hother
    rw [List.getElem?_set_self hmade]
    simp
  · rw [List.getElem?_set_ne (Ne.symm hother)]
    simp [hother]

/-- The turn of a fiber after its state was set. -/
theorem turn_set_self {fiber : ℕ} (hmade : fiber < s.fibers.length) (state : FiberState)
    (worker : ℕ) (after : Worker) :
    ({ s with fibers := s.fibers.set fiber state }.setWorker worker after).turn fiber =
      if state = .running then some () else none := by
  unfold System.turn System.setWorker
  simp only [running_set_iff hmade]
  simp

theorem turn_set_of_ne {fiber other : ℕ} (hmade : fiber < s.fibers.length) (hother : other ≠ fiber)
    (state : FiberState) (worker : ℕ) (after : Worker) :
    ({ s with fibers := s.fibers.set fiber state }.setWorker worker after).turn other =
      s.turn other := by
  unfold System.turn System.setWorker
  simp only [running_set_iff hmade]
  simp [hother]

/-- The worker resumes the fiber it holds. -/
theorem Moved.of_resume {worker fiber : ℕ} {turn : Option Turn} (hplaced : Placed s)
    (hholding : s.workers worker = .holding fiber)
    (hresume : s.resume worker fiber = .ok (turn, next)) : Moved s turn next := by
  have hmade := hplaced.taken_made worker fiber (by rw [hholding]; rfl)
  have hrest := hplaced.held_not_running hholding
  have heq : turn = some (.resumed fiber) ∧ next =
      { s with fibers := s.fibers.set fiber .running }.setWorker worker (.running fiber) := by
    unfold System.resume at hresume
    split at hresume
    · cases hresume
      exact ⟨rfl, rfl⟩
    · cases hresume
      exact ⟨rfl, rfl⟩
    · cases hresume
  obtain ⟨rfl, rfl⟩ := heq
  refine ⟨hplaced.change ?_ (List.length_set) ?_, ?_⟩
  · intro other htaken
    rw [hholding]
    exact htaken
  · intro other
    rw [running_set_iff hmade, hplaced.running_iff]
    constructor
    · rintro (⟨rfl, _⟩ | ⟨_, runner, hrunner⟩)
      · exact ⟨worker, Function.update_self _ _ _⟩
      · have hne : runner ≠ worker := by
          rintro rfl
          rw [hholding] at hrunner
          cases hrunner
        exact ⟨runner, by rw [Function.update_of_ne hne, hrunner]⟩
    · rintro ⟨runner, hrunner⟩
      by_cases hworker : runner = worker
      · rw [hworker, Function.update_self] at hrunner
        exact Or.inl ⟨(Worker.running.inj hrunner).symm, rfl⟩
      · rw [Function.update_of_ne hworker] at hrunner
        refine Or.inr ⟨?_, runner, hrunner⟩
        rintro rfl
        exact hrest ((hplaced.running_iff other).mpr ⟨runner, hrunner⟩)
  · intro other
    by_cases hother : other = fiber
    · have hbefore : s.turn other = none := if_neg (hother ▸ hrest)
      rw [hbefore, hother, turn_set_self hmade, if_pos rfl, turnEntries, if_pos rfl]
      exact leads_supplied ()
    · rw [turn_set_of_ne hmade hother, turnEntries, if_neg (Ne.symm hother)]
      exact leads_nil _

/-- Assumes: a worker that runs a fiber, and a state other than RUNNING. The fiber pauses in it. -/
theorem Moved.of_pause {worker fiber : ℕ} {state : FiberState} (hplaced : Placed s)
    (hruns : s.workers worker = .running fiber) (hstate : state ≠ .running) :
    Moved s (some (.paused fiber))
      ({ s with fibers := s.fibers.set fiber state }.setWorker worker .looking) := by
  have hmade := hplaced.taken_made worker fiber (by rw [hruns]; rfl)
  have hrunning := (hplaced.running_iff fiber).mpr ⟨worker, hruns⟩
  refine ⟨hplaced.change ?_ (List.length_set) ?_, ?_⟩
  · exact fun _ htaken ↦ nomatch htaken
  · intro other
    rw [running_set_iff hmade, hplaced.running_iff]
    constructor
    · rintro (⟨_, habsurd⟩ | ⟨hother, runner, hrunner⟩)
      · exact absurd habsurd hstate
      · have hne : runner ≠ worker := by
          rintro rfl
          rw [hruns] at hrunner
          exact hother (Worker.running.inj hrunner).symm
        exact ⟨runner, by rw [Function.update_of_ne hne, hrunner]⟩
    · rintro ⟨runner, hrunner⟩
      by_cases hworker : runner = worker
      · rw [hworker, Function.update_self] at hrunner
        cases hrunner
      · rw [Function.update_of_ne hworker] at hrunner
        refine Or.inr ⟨?_, runner, hrunner⟩
        rintro rfl
        exact hworker (hplaced.taken_once runner worker other (by rw [hrunner]; rfl)
          (by rw [hruns]; rfl))
  · intro other
    by_cases hother : other = fiber
    · have hbefore : s.turn other = some () := if_pos (hother ▸ hrunning)
      rw [hbefore, hother, turn_set_self hmade, if_neg hstate, turnEntries, if_pos rfl]
      exact leads_withdrawn ()
    · rw [turn_set_of_ne hmade hother, turnEntries, if_neg (Ne.symm hother)]
      exact leads_nil _

/-- One move keeps every fiber in one place. -/
theorem Moved.of_step {move : Move} {turn : Option Turn} (hplaced : Placed s)
    (hsettled : Settled s move) (hstep : System.step ctl move s = .ok (turn, next)) :
    Moved s turn next := by
  have hunmoved : Moved s none s := Moved.of_same hplaced fun _ ↦ Iff.rfl
  cases move with
  | schedule task =>
    cases hstep
    refine Moved.of_same (hplaced.schedule ?_) (running_schedule s task)
    rintro fiber rfl
    exact hsettled.2 fiber (mem_fibersOf.mpr List.mem_cons_self)
  | call worker action =>
    simp only [System.step] at hstep
    cases hperformed : s.performed worker action with
    | none =>
      rw [hperformed] at hstep
      cases hstep
      exact hunmoved
    | some performed =>
      rw [hperformed] at hstep
      exact Moved.of_act hplaced hperformed (hsettled performed hperformed) hstep
  | take worker =>
    simp only [System.step] at hstep
    cases hworker : s.workers worker with
    | looking =>
      rw [hworker] at hstep
      cases hstep
      exact Moved.of_take hplaced hworker
    | _ =>
      rw [hworker] at hstep
      cases hstep
      exact hunmoved
  | resume worker =>
    simp only [System.step] at hstep
    cases hworker : s.workers worker with
    | holding fiber =>
      rw [hworker] at hstep
      exact Moved.of_resume hplaced hworker hstep
    | _ =>
      rw [hworker] at hstep
      cases hstep
      exact hunmoved
  | yield worker =>
    simp only [System.step] at hstep
    cases hworker : s.workers worker with
    | running fiber =>
      have hrunning := (hplaced.running_iff fiber).mpr ⟨worker, hworker⟩
      simp only [hworker, System.yield, hrunning] at hstep
      cases hstep
      exact Moved.of_pause hplaced hworker (by decide)
    | _ =>
      rw [hworker] at hstep
      cases hstep
      exact hunmoved
  | finish worker =>
    simp only [System.step] at hstep
    cases hworker : s.workers worker with
    | running fiber =>
      have hmade := hplaced.taken_made worker fiber (by rw [hworker]; rfl)
      simp only [hworker, System.finish, System.yield, List.getElem?_set_self hmade] at hstep
      cases hstep
      exact Moved.of_pause hplaced hworker (by decide)
    | _ =>
      rw [hworker] at hstep
      cases hstep
      exact hunmoved
  | leave worker =>
    simp only [System.step] at hstep
    cases hworker : s.workers worker with
    | idle =>
      rw [hworker] at hstep
      cases hstep
      exact Moved.of_idle hplaced (by rw [hworker]; rfl) rfl
    | _ =>
      rw [hworker] at hstep
      cases hstep
      exact hunmoved

end Moves

/-! ### Runs -/

section Runs

variable {κ : Type} {ctl : κ → CtlOp → Fd → Events → Bool × κ}

/-- The turns of a fiber along a run. -/
def turns (fiber : ℕ) (trace : List (Move × Option Turn)) : List (Entry Unit) :=
  trace.flatMap fun entry ↦ turnEntries fiber entry.2

/-- Along every run of settled moves, no worker is about to resume a fiber that is RUNNING, and
every fiber takes turns: between two resumes it pauses. -/
theorem resumed_after_pause (kernel : κ) {trace : List (Move × Option Turn)} {final : System κ}
    (hrun : Run (System.step ctl) Settled (System.init kernel) trace final) :
    (∀ worker fiber, final.workers worker = .holding fiber →
      final.fibers[fiber]? ≠ some .running) ∧
    ∀ fiber, Answered (turns fiber trace) (final.turn fiber) := by
  let kept : List (Move × Option Turn) → System κ → Prop := fun trace now ↦
    Placed now ∧ ∀ fiber, Balanced (turns fiber trace) (now.turn fiber)
  have hstart : kept [] (System.init kernel) := ⟨placed_init kernel, fun _ ↦ Balanced.nil⟩
  have hkept : kept trace final := by
    refine hrun.history_invariant hstart ?_
    rintro trace now move turn next ⟨hplaced, hbalanced⟩ hsettled hstep
    obtain ⟨hnext, hleads⟩ := Moved.of_step hplaced hsettled hstep
    refine ⟨hnext, ?_⟩
    intro fiber
    rw [turns, List.flatMap_append, List.flatMap_singleton]
    exact hleads fiber _ (hbalanced fiber)
  exact ⟨fun _ _ hheld ↦ hkept.1.held_not_running hheld, fun fiber ↦ (hkept.2 fiber).answered⟩

end Runs

/-! ### A fiber that is not quick enough -/

/-- The fiber on worker `0` waits to read from descriptor `5`. -/
def awaitOnWorker : Move := .call 0 (.addEvent 5 .read ⟨none, 0, false⟩ none)

/-- `idle` on worker `1` learns that descriptor `5` is readable. -/
def readableOnWorker : Move := .call 1 (.report 5 ⟨true, false, false, false⟩)

/-- Worker `0` runs fiber `0`, which waits for descriptor `5` and yields; then descriptor `5`
becomes readable, and worker `1` takes the fiber. -/
theorem resumed_after_pause_readable :
    ∃ trace final, Run (System.step willingCtl) Settled (System.init ()) trace final ∧
      final.workers 1 = .holding 0 ∧ final.fibers[0]? ≠ some .running ∧
      Answered (turns 0 trace) (final.turn 0) := by
  have hnone : ∀ s : System Unit, MayHand s [] := fun _ ↦ ⟨List.nodup_nil, nofun⟩
  have hspawned := Run.nil.snoc
    (show Settled (System.init ()) (.schedule (.callback 9)) from ⟨List.nodup_nil, nofun⟩)
    (show System.step willingCtl _ _ = .ok (_, _) from rfl)
  have htaken := hspawned.snoc (show Settled _ (.take 0) from trivial) rfl
  have hresumed := htaken.snoc (show Settled _ (.resume 0) from trivial) rfl
  have hwaiting := hresumed.snoc
    (show Settled _ awaitOnWorker from fun _ heq ↦ Option.some.inj heq ▸ hnone _) rfl
  have hpaused := hwaiting.snoc (show Settled _ (.yield 0) from trivial) rfl
  have hidle := hpaused.snoc (show Settled _ (.take 1) from trivial) rfl
  have hqueued := hidle.snoc (show Settled _ readableOnWorker from ?_) rfl
  · have hleft := hqueued.snoc (show Settled _ (.leave 1) from trivial) rfl
    have hheld := hleft.snoc (show Settled _ (.take 1) from trivial) rfl
    obtain ⟨hrest, hanswered⟩ := resumed_after_pause () hheld
    exact ⟨_, _, hheld, rfl, hrest 1 0 rfl, hanswered 0⟩
  · intro performed heq
    cases heq
    refine ⟨List.nodup_singleton 0, ?_⟩
    intro fiber hmem
    obtain rfl : fiber = 0 := List.mem_singleton.mp hmem
    refine ⟨by rintro ⟨⟩, List.not_mem_nil, ?_⟩
    rintro (_ | _ | worker) hheld
    · cases hheld
    · cases hheld
    · cases hheld

/-- Descriptor `5` becomes readable before the fiber yields: `idle` on worker `1` queues the fiber,
worker `1` takes it, and resumes it while it is RUNNING on worker `0`. -/
theorem running_fiber_resumed :
    ∃ trace final, Run (System.step willingCtl) (fun _ _ ↦ True) (System.init ()) trace final ∧
      final.workers 0 = .running 0 ∧ final.workers 1 = .holding 0 ∧
      final.fibers[0]? = some .running ∧
      System.step willingCtl (.resume 1) final =
        .error (.assertion "m_state != TERM && m_state != RUNNING") := by
  have hstart :
      Run (System.step willingCtl) (fun _ _ ↦ True) (System.init ()) [] (System.init ()) :=
    Run.nil
  have hspawned := hstart.snoc trivial
    (show System.step willingCtl (.schedule (.callback 9)) _ = .ok (_, _) from rfl)
  have htaken := hspawned.snoc trivial
    (show System.step willingCtl (.take 0) _ = .ok (_, _) from rfl)
  have hresumed := htaken.snoc trivial
    (show System.step willingCtl (.resume 0) _ = .ok (_, _) from rfl)
  have hwaiting := hresumed.snoc trivial
    (show System.step willingCtl awaitOnWorker _ = .ok (_, _) from rfl)
  have hidle := hwaiting.snoc trivial
    (show System.step willingCtl (.take 1) _ = .ok (_, _) from rfl)
  have hqueued := hidle.snoc trivial
    (show System.step willingCtl readableOnWorker _ = .ok (_, _) from rfl)
  have hleft := hqueued.snoc trivial
    (show System.step willingCtl (.leave 1) _ = .ok (_, _) from rfl)
  have hheld := hleft.snoc trivial
    (show System.step willingCtl (.take 1) _ = .ok (_, _) from rfl)
  exact ⟨_, _, hheld, rfl, rfl, rfl, rfl⟩

end Cczoe.Scheduler
