import Cczoe.Foundations.GuardedRuns
import Cczoe.Scheduler.Workers

/-!
# The order of the tasks

`m_tasks` is shared by all threads: any of them may put a task in, and any worker takes the first
one. `TaskLog` records beside a `System` which fibers were put in and which worker took which one;
the moves are those of `System.step`. `Logged.step_ordered` says what one move does to the records,
and `tasks_in_order` draws the conclusion for whole runs, in whatever order the threads move: the
fibers are taken in the order in which they were put in, none is lost or taken twice, and every
worker resumes the fibers it takes one by one.
-/

set_option autoImplicit false
set_option relaxedAutoImplicit false

namespace Cczoe.Scheduler

open Foundations

/-- What was put into `m_tasks`, and what each worker has taken out of it. -/
structure TaskLog where
  handed : List ℕ := []
  taken : List (ℕ × ℕ) := []
  deriving DecidableEq, Repr

/-- The fibers that a worker has taken. -/
def takenBy (worker : ℕ) (taken : List (ℕ × ℕ)) : List ℕ :=
  taken.filterMap fun entry ↦ if entry.1 = worker then some entry.2 else none

theorem takenBy_append (worker : ℕ) (first second : List (ℕ × ℕ)) :
    takenBy worker (first ++ second) = takenBy worker first ++ takenBy worker second :=
  List.filterMap_append

theorem takenBy_self (worker fiber : ℕ) : takenBy worker [(worker, fiber)] = [fiber] := by
  simp [takenBy]

theorem takenBy_other {worker other : ℕ} (fiber : ℕ) (hother : other ≠ worker) :
    takenBy other [(worker, fiber)] = [] := by
  simp [takenBy, hother.symm]

/-- The fiber that a worker has taken and not resumed yet. -/
def Worker.held : Worker → List ℕ
  | .holding fiber => [fiber]
  | .looking | .running _ | .idle => []

/-- The fibers that a worker resumes in a trace. -/
def resumedBy (worker : ℕ) (trace : List (Move × Option Turn)) : List ℕ :=
  trace.filterMap fun
    | (.resume other, some (.resumed fiber)) => if other = worker then some fiber else none
    | _ => none

theorem resumedBy_snoc (worker : ℕ) (trace : List (Move × Option Turn))
    (entry : Move × Option Turn) :
    resumedBy worker (trace ++ [entry]) = resumedBy worker trace ++ resumedBy worker [entry] :=
  List.filterMap_append

theorem resumedBy_self (worker fiber : ℕ) :
    resumedBy worker [(.resume worker, some (.resumed fiber))] = [fiber] := by
  simp [resumedBy]

theorem resumedBy_other {worker other : ℕ} (fiber : ℕ) (hother : other ≠ worker) :
    resumedBy other [(.resume worker, some (.resumed fiber))] = [] := by
  simp [resumedBy, hother.symm]

namespace System

variable {κ : Type} (ctl : κ → CtlOp → Fd → Events → Bool × κ)

/-- The fibers as which tasks are put into `m_tasks`, when there are `made` fibers already: a
callback gets a new one. -/
def admitted : ℕ → List Task → List ℕ
  | _, [] => []
  | made, .callback _ :: rest => made :: admitted (made + 1) rest
  | made, .fiber fiber :: rest =>
    if fiber < made then fiber :: admitted made rest else admitted made rest

/-- The tasks that a move hands to `schedule`. -/
def handedBy (s : System κ) : Move → List Task
  | .schedule task => [task]
  | .call worker action =>
    match s.performed worker action with
    | some action =>
      match IOManager.step ctl action s.io with
      | .ok (outcome, _) => tasksOf outcome.triggers
      | .error _ => []
    | none => []
  | .take _ | .resume _ | .yield _ | .finish _ | .leave _ => []

/-- What a move takes out of `m_tasks`, with the worker that takes it. -/
def takes (s : System κ) : Move → List (ℕ × ℕ)
  | .take worker =>
    match s.workers worker, s.tasks with
    | .looking, fiber :: _ => [(worker, fiber)]
    | _, _ => []
  | .schedule _ | .call _ _ | .resume _ | .yield _ | .finish _ | .leave _ => []

/-- The tasks are put behind those that wait already, and no worker moves. -/
theorem scheduleAll_effect (s : System κ) (tasks : List Task) :
    (s.scheduleAll tasks).tasks = s.tasks ++ admitted s.fibers.length tasks ∧
      (s.scheduleAll tasks).workers = s.workers := by
  induction tasks generalizing s with
  | nil => exact ⟨(List.append_nil _).symm, rfl⟩
  | cons task rest ih =>
    obtain ⟨htasks, hworkers⟩ := ih (s.schedule task)
    rw [scheduleAll, List.foldl_cons, ← scheduleAll, htasks, hworkers]
    cases task with
    | callback cb =>
      simp only [schedule, admitted, List.length_append, List.length_cons, List.length_nil,
        List.append_assoc, List.cons_append, List.nil_append, zero_add, and_self]
    | fiber fiber =>
      rw [schedule, admitted]
      by_cases hmade : fiber < s.fibers.length
      · simp only [if_pos hmade, List.append_assoc, List.cons_append, List.nil_append, and_self]
      · simp only [if_neg hmade, and_self]

variable {ctl} {s next : System κ} {turn : Option Turn}

/-- What one move does to `m_tasks` and to the fibers that the workers hold. -/
structure Ordered (ctl : κ → CtlOp → Fd → Events → Bool × κ) (s : System κ) (move : Move)
    (turn : Option Turn) (next : System κ) : Prop where
  tasks : s.tasks ++ admitted s.fibers.length (s.handedBy ctl move) =
    (s.takes move).map Prod.snd ++ next.tasks
  held : ∀ worker, (s.workers worker).held ++ takenBy worker (s.takes move) =
    resumedBy worker [(move, turn)] ++ (next.workers worker).held

/-- A move that changes neither. -/
theorem ordered_same {move : Move} (hhanded : s.handedBy ctl move = [])
    (htakes : s.takes move = []) (hresumed : ∀ worker, resumedBy worker [(move, turn)] = [])
    (htasks : next.tasks = s.tasks)
    (hheld : ∀ worker, (next.workers worker).held = (s.workers worker).held) :
    Ordered ctl s move turn next where
  tasks := by rw [hhanded, htakes, htasks, admitted, List.append_nil, List.map_nil, List.nil_append]
  held := fun worker ↦ by
    rw [htakes, hresumed, hheld, takenBy, List.filterMap_nil, List.append_nil,
      List.nil_append]

theorem setWorker_self (s : System κ) (worker : ℕ) (after : Worker) :
    (s.setWorker worker after).workers worker = after :=
  Function.update_self ..

theorem setWorker_other (s : System κ) {worker other : ℕ} (after : Worker)
    (hother : other ≠ worker) : (s.setWorker worker after).workers other = s.workers other :=
  Function.update_of_ne hother ..

/-- A worker that holds no fiber goes on without one. -/
theorem held_setWorker {worker : ℕ} {after : Worker} (hbefore : (s.workers worker).held = [])
    (hafter : after.held = []) (other : ℕ) :
    ((s.setWorker worker after).workers other).held = (s.workers other).held := by
  by_cases hsame : other = worker
  · rw [hsame, setWorker_self, hbefore, hafter]
  · rw [setWorker_other s after hsame]

/-- A worker takes a task, or goes idle when there is none. -/
theorem ordered_take {worker : ℕ} (hlooking : s.workers worker = .looking) :
    Ordered ctl s (.take worker) none (s.take worker) := by
  cases htasks : s.tasks with
  | nil =>
    have hidle : s.take worker = s.setWorker worker .idle := by
      rw [System.take, htasks]
    have htakes : s.takes (.take worker) = [] := by
      rw [takes, hlooking, htasks]
    rw [hidle]
    exact ordered_same rfl htakes (fun _ ↦ rfl) rfl (held_setWorker (by rw [hlooking]; rfl) rfl)
  | cons fiber rest =>
    have htakes : s.takes (.take worker) = [(worker, fiber)] := by
      rw [takes, hlooking, htasks]
    have hnext : s.take worker = { s with tasks := rest }.setWorker worker (.holding fiber) := by
      rw [System.take, htasks]
    rw [hnext]
    constructor
    · rw [htakes, htasks]
      exact List.append_nil _
    · intro other
      rw [htakes]
      by_cases hsame : other = worker
      · rw [hsame, hlooking, setWorker_self, takenBy_self]
        rfl
      · rw [setWorker_other _ _ hsame, takenBy_other fiber hsame]
        exact List.append_nil _

/-- A worker resumes the fiber it holds. -/
theorem ordered_resume {worker fiber : ℕ} (hholding : s.workers worker = .holding fiber)
    (hresume : s.resume worker fiber = .ok (turn, next)) :
    Ordered ctl s (.resume worker) turn next := by
  have hresumed : turn = some (.resumed fiber) ∧ next.tasks = s.tasks ∧
      next.workers = Function.update s.workers worker (.running fiber) := by
    unfold System.resume at hresume
    split at hresume
    · cases hresume
      exact ⟨rfl, rfl, rfl⟩
    · cases hresume
      exact ⟨rfl, rfl, rfl⟩
    · cases hresume
  obtain ⟨rfl, htasks, hworkers⟩ := hresumed
  constructor
  · rw [htasks]
    exact List.append_nil _
  · intro other
    rw [hworkers]
    by_cases hsame : other = worker
    · rw [hsame, hholding, Function.update_self, resumedBy_self]
      rfl
    · rw [Function.update_of_ne hsame, resumedBy_other fiber hsame]
      exact List.append_nil _

/-- The fiber on a worker pauses. -/
theorem ordered_yield {move : Move} {worker fiber : ℕ} {fibers : List FiberState}
    (hrunning : s.workers worker = .running fiber)
    (hhanded : s.handedBy ctl move = []) (htakes : s.takes move = [])
    (hresumed : ∀ worker, resumedBy worker [(move, some (.paused fiber))] = [])
    (hyield : { s with fibers := fibers }.yield worker fiber = .ok (turn, next)) :
    Ordered ctl s move turn next := by
  have hpaused : turn = some (.paused fiber) ∧ next.tasks = s.tasks ∧
      next.workers = Function.update s.workers worker .looking := by
    unfold System.yield at hyield
    split at hyield
    · cases hyield
      exact ⟨rfl, rfl, rfl⟩
    · cases hyield
      exact ⟨rfl, rfl, rfl⟩
    · cases hyield
  obtain ⟨rfl, htasks, hworkers⟩ := hpaused
  refine ordered_same hhanded htakes hresumed htasks fun other ↦ ?_
  rw [hworkers]
  exact held_setWorker (by rw [hrunning]; rfl) rfl other

/-- A call hands over the tasks of the events that it triggers. -/
theorem ordered_act {worker : ℕ} {action performed : Action}
    (hperformed : s.performed worker action = some performed)
    (hact : s.act ctl performed = .ok (turn, next)) :
    Ordered ctl s (.call worker action) turn next := by
  unfold System.act at hact
  cases hmoved : IOManager.step ctl performed s.io with
  | error fault =>
    rw [hmoved] at hact
    cases hact
  | ok moved =>
    rw [hmoved] at hact
    cases hact
    have hhanded : s.handedBy ctl (.call worker action) = tasksOf moved.1.triggers := by
      simp only [handedBy, hperformed, hmoved]
    obtain ⟨htasks, hworkers⟩ :=
      scheduleAll_effect { s with io := moved.2 } (tasksOf moved.1.triggers)
    constructor
    · rw [hhanded]
      exact htasks.symm
    · intro other
      rw [hworkers]
      exact List.append_nil _

/-- One move puts tasks behind those that wait, or takes the first one, or lets a worker resume the
fiber that it holds. -/
theorem step_ordered {move : Move} (hstep : System.step ctl move s = .ok (turn, next)) :
    Ordered ctl s move turn next := by
  cases move with
  | schedule task =>
    cases hstep
    obtain ⟨htasks, hworkers⟩ := scheduleAll_effect s [task]
    exact ⟨htasks.symm, fun other ↦ (List.append_nil _).trans (by rw [← hworkers]; rfl)⟩
  | call worker action =>
    simp only [System.step] at hstep
    cases hperformed : s.performed worker action with
    | none =>
      rw [hperformed] at hstep
      cases hstep
      exact ordered_same (by rw [handedBy, hperformed]) rfl (fun _ ↦ rfl) rfl fun _ ↦ rfl
    | some performed =>
      rw [hperformed] at hstep
      exact ordered_act hperformed hstep
  | take worker =>
    simp only [System.step] at hstep
    cases hworker : s.workers worker with
    | looking =>
      rw [hworker] at hstep
      cases hstep
      exact ordered_take hworker
    | _ =>
      rw [hworker] at hstep
      cases hstep
      exact ordered_same rfl (by rw [takes, hworker]) (fun _ ↦ rfl) rfl fun _ ↦ rfl
  | resume worker =>
    simp only [System.step] at hstep
    cases hworker : s.workers worker with
    | holding fiber =>
      rw [hworker] at hstep
      exact ordered_resume hworker hstep
    | _ =>
      rw [hworker] at hstep
      cases hstep
      exact ordered_same rfl rfl (fun _ ↦ rfl) rfl fun _ ↦ rfl
  | yield worker =>
    simp only [System.step] at hstep
    cases hworker : s.workers worker with
    | running fiber =>
      rw [hworker] at hstep
      exact ordered_yield hworker rfl rfl (fun _ ↦ rfl) hstep
    | _ =>
      rw [hworker] at hstep
      cases hstep
      exact ordered_same rfl rfl (fun _ ↦ rfl) rfl fun _ ↦ rfl
  | finish worker =>
    simp only [System.step] at hstep
    cases hworker : s.workers worker with
    | running fiber =>
      simp only [hworker, System.finish] at hstep
      exact ordered_yield hworker rfl rfl (fun _ ↦ rfl) hstep
    | _ =>
      rw [hworker] at hstep
      cases hstep
      exact ordered_same rfl rfl (fun _ ↦ rfl) rfl fun _ ↦ rfl
  | leave worker =>
    simp only [System.step] at hstep
    cases hworker : s.workers worker with
    | idle =>
      rw [hworker] at hstep
      cases hstep
      exact ordered_same rfl rfl (fun _ ↦ rfl) rfl (held_setWorker (by rw [hworker]; rfl) rfl)
    | _ =>
      rw [hworker] at hstep
      cases hstep
      exact ordered_same rfl rfl (fun _ ↦ rfl) rfl fun _ ↦ rfl

end System

/-- A system with its records. -/
structure Logged (κ : Type) where
  system : System κ
  log : TaskLog

namespace Logged

variable {κ : Type} (ctl : κ → CtlOp → Fd → Events → Bool × κ)

/-- The records after a move. -/
def record (l : Logged κ) (move : Move) : TaskLog where
  handed := l.log.handed ++
    System.admitted l.system.fibers.length (l.system.handedBy ctl move)
  taken := l.log.taken ++ l.system.takes move

/-- A move, which is recorded when it is made. -/
def step (move : Move) (l : Logged κ) : Except Fault (Option Turn × Logged κ) :=
  match System.step ctl move l.system with
  | .ok (turn, next) => .ok (turn, ⟨next, l.record ctl move⟩)
  | .error fault => .error fault

variable {ctl} {l after : Logged κ} {turn : Option Turn}

/-- What the records say about a state that a trace leads to. -/
structure Agrees (trace : List (Move × Option Turn)) (l : Logged κ) : Prop where
  tasks : l.log.handed = l.log.taken.map Prod.snd ++ l.system.tasks
  held : ∀ worker, takenBy worker l.log.taken =
    resumedBy worker trace ++ (l.system.workers worker).held

theorem Agrees.step {trace : List (Move × Option Turn)} {move : Move} (hagrees : Agrees trace l)
    (hstep : Logged.step ctl move l = .ok (turn, after)) :
    Agrees (trace ++ [(move, turn)]) after := by
  unfold Logged.step at hstep
  cases hmoved : System.step ctl move l.system with
  | error fault =>
    rw [hmoved] at hstep
    cases hstep
  | ok moved =>
    rw [hmoved] at hstep
    cases hstep
    have hordered := System.step_ordered hmoved
    constructor
    · simp only [record]
      rw [hagrees.tasks, List.append_assoc, hordered.tasks, List.map_append, List.append_assoc]
    · intro worker
      simp only [record]
      rw [takenBy_append, hagrees.held, List.append_assoc, hordered.held, resumedBy_snoc,
        List.append_assoc]

end Logged

namespace System

variable {κ : Type} {ctl : κ → CtlOp → Fd → Events → Bool × κ}

/-- Assumes: a run of the threads, in whatever order they move. The fibers that were taken out of
`m_tasks`, followed by those that wait in it, are the ones that were put in, in that order; and the
fibers that a worker took are the ones that it resumed, in that order, and the one that it holds. -/
theorem tasks_in_order (kernel : κ) {trace : List (Move × Option Turn)} {final : System κ}
    {guard : System κ → Move → Prop}
    (hrun : Run (System.step ctl) guard (System.init kernel) trace final) :
    ∃ log, Run (Logged.step ctl) (fun _ _ ↦ True) ⟨System.init kernel, {}⟩ trace ⟨final, log⟩ ∧
      log.handed = log.taken.map Prod.snd ++ final.tasks ∧
      ∀ worker, takenBy worker log.taken =
        resumedBy worker trace ++ (final.workers worker).held := by
  let records : System κ → Logged κ → Prop := fun s l ↦ l.system = s
  have hstart : records (System.init kernel) ⟨System.init kernel, {}⟩ := rfl
  have hrecorded : ∃ l, Run (Logged.step ctl) (fun _ _ ↦ True) ⟨System.init kernel, {}⟩ trace l ∧
      records final l := by
    refine hrun.simulated hstart ?_
    rintro now l move turn next rfl - hstep
    refine ⟨⟨next, l.record ctl move⟩, ?_, rfl⟩
    rw [Logged.step, hstep]
  obtain ⟨⟨system, log⟩, hlogged, hsame⟩ := hrecorded
  obtain rfl : system = final := hsame
  have hagrees : Logged.Agrees trace ⟨system, log⟩ := by
    refine hlogged.history_invariant ⟨rfl, fun _ ↦ rfl⟩ ?_
    intro trace now move turn next hagrees _ hstep
    exact hagrees.step hstep
  exact ⟨log, hlogged, hagrees.tasks, hagrees.held⟩

/-- Three callbacks are scheduled; worker `0` takes and resumes the first, and worker `1` takes the
second before the third is scheduled. -/
theorem tasks_in_order_callbacks :
    ∃ trace final log,
      Run (Logged.step willingCtl) (fun _ _ ↦ True) ⟨System.init (), {}⟩ trace ⟨final, log⟩ ∧
        final.tasks = [2] ∧ log.handed = log.taken.map Prod.snd ++ [2] ∧
        takenBy 0 log.taken = [0] ∧ takenBy 1 log.taken = [1] := by
  have hstart :
      Run (System.step willingCtl) (fun _ _ ↦ True) (System.init ()) [] (System.init ()) :=
    Run.nil
  have hfirst := hstart.snoc trivial
    (show System.step willingCtl (.schedule (.callback 7)) _ = .ok (_, _) from rfl)
  have hsecond := hfirst.snoc trivial
    (show System.step willingCtl (.schedule (.callback 8)) _ = .ok (_, _) from rfl)
  have htaken := hsecond.snoc trivial
    (show System.step willingCtl (.take 0) _ = .ok (_, _) from rfl)
  have hresumed := htaken.snoc trivial
    (show System.step willingCtl (.resume 0) _ = .ok (_, _) from rfl)
  have hheld := hresumed.snoc trivial
    (show System.step willingCtl (.take 1) _ = .ok (_, _) from rfl)
  have hthird := hheld.snoc trivial
    (show System.step willingCtl (.schedule (.callback 9)) _ = .ok (_, _) from rfl)
  obtain ⟨log, hlogged, htasks, hworkers⟩ := tasks_in_order () hthird
  exact ⟨_, _, log, hlogged, rfl, htasks, hworkers 0, hworkers 1⟩

end System

end Cczoe.Scheduler
