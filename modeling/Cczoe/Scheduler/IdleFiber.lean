import Cczoe.Foundations.GuardedRuns
import Cczoe.Scheduler.Workers

/-!
# The idle fiber of `Scheduler::run`

A worker that finds no task resumes its idle fiber, after `setIdle` has put it back to INIT. A
fiber is resumed with its callback returned when its context is behind the end of `mainFunc`; the
assertion of `Fiber::resume` excludes that for the fibers of tasks, whose state stays TERM until
`reset`, and `setIdle` takes that protection from the idle fiber. `idle` returns when its loop
condition fails: `Scheduler::idle` tests `m_stopCommand`, and `IOManager::idle` goes on as long as
there is a timer. `finished_fiber_resumed_iff` says of every run that a finished fiber is resumed in
it exactly when a worker finds no task after such a test.

The trace records what the workers read (the stop command and the timers at a test, an empty
`m_tasks`) and which fibers they resume.
-/

set_option autoImplicit false
set_option relaxedAutoImplicit false

namespace Cczoe.Scheduler

open Cczoe.Foundations

/-- The function of the idle fiber. -/
inductive IdleBody
  | scheduler
  | ioManager
  deriving DecidableEq, Repr

/-- The loop condition of `Scheduler::idle` and `IOManager::idle`. -/
def IdleBody.continues (stopCommand hasTimer : Bool) : IdleBody → Bool
  | .scheduler => !stopCommand
  | .ioManager => !stopCommand || hasTimer

/-- A fiber with its `m_state`, and whether its callback has returned since it was set. -/
structure FiberCell where
  state : FiberState
  returned : Bool
  deriving DecidableEq, Repr

/-- Where a worker is in the loop of `Scheduler::run`. -/
inductive LoopPlace
  | looking
  | holding (fiber : ℕ)
  | inTask (fiber : ℕ)
  | inIdle
  /-- A finished context was resumed: it returns from `mainFunc`, and its thread ends. -/
  | ended
  deriving DecidableEq, Repr

/-- The workers of a scheduler, each with its idle fiber, and what they share. -/
structure WorkerLoops where
  fibers : List FiberCell
  tasks : List ℕ
  stopCommand : Bool
  hasTimer : Bool
  idleFiber : ℕ → FiberCell
  place : ℕ → LoopPlace

/-- The steps of the threads. -/
inductive LoopAction
  /-- A callback is scheduled, in a new fiber. -/
  | scheduleCallback
  /-- A fiber is scheduled. -/
  | scheduleFiber (fiber : ℕ)
  /-- `m_stopCommand = true`. -/
  | stop
  /-- The timer set becomes empty or not. -/
  | setTimers (present : Bool)
  /-- `Fiber::reset`. -/
  | reset (fiber : ℕ)
  /-- A worker takes the first task, or resumes its idle fiber. -/
  | take (worker : ℕ)
  /-- `task->resume()`. -/
  | resume (worker : ℕ)
  /-- The fiber of a task yields. -/
  | yield (worker : ℕ)
  /-- The callback of a task returns. -/
  | finish (worker : ℕ)
  /-- The idle fiber tests its loop condition; it returns, or goes through the loop and yields. -/
  | test (worker : ℕ)
  deriving DecidableEq, Repr

/-- A fiber that a worker resumes. -/
inductive Resumable
  | task (fiber : ℕ)
  | idle (worker : ℕ)
  deriving DecidableEq, Repr

/-- What a step shows. -/
inductive LoopEvent
  | quiet
  /-- A fiber is resumed; `returned` says whether its callback has returned already. -/
  | resumed (fiber : Resumable) (returned : Bool)
  /-- The loop condition of `idle` is tested. -/
  | tested (stopCommand hasTimer : Bool)
  deriving DecidableEq, Repr

namespace FiberCell

/-- A fiber that has just been made. -/
def new : FiberCell := ⟨.init, false⟩

/-- `Fiber::setIdle`. -/
def setIdle (fiber : FiberCell) : FiberCell := { fiber with state := .init }

/-- `Fiber::resume` up to the change of context. -/
def resume (fiber : FiberCell) : Except Fault FiberCell :=
  if fiber.state ≠ .term ∧ fiber.state ≠ .running then .ok { fiber with state := .running }
  else .error (.assertion "m_state != TERM && m_state != RUNNING")

/-- `Fiber::yield` up to the change of context. -/
def yield (fiber : FiberCell) : Except Fault FiberCell :=
  if fiber.state = .running then .ok { fiber with state := .ready }
  else if fiber.state = .term then .ok fiber
  else .error (.assertion "m_state == RUNNING || m_state == TERM")

/-- The end of `Fiber::mainFunc`. -/
def finish (fiber : FiberCell) : Except Fault FiberCell :=
  { fiber with state := .term, returned := true }.yield

/-- `Fiber::reset`. -/
def reset (fiber : FiberCell) : Except Fault FiberCell :=
  if fiber.state = .init ∨ fiber.state = .term then .ok new
  else .error (.assertion "m_state == INIT || m_state == TERM")

/-- A fiber whose callback has returned is TERM. -/
def Settled (fiber : FiberCell) : Prop := fiber.returned = true → fiber.state = .term

theorem resume_ok {fiber changed : FiberCell} (hresume : fiber.resume = .ok changed) :
    fiber.state ≠ .term ∧ changed.returned = fiber.returned := by
  rw [resume] at hresume
  split at hresume
  · rename_i hstate
    cases hresume
    exact ⟨hstate.1, rfl⟩
  · cases hresume

theorem yield_ok {fiber changed : FiberCell} (hyield : fiber.yield = .ok changed) :
    changed.returned = fiber.returned ∧ (fiber.state = .running ∨ changed = fiber) := by
  rw [yield] at hyield
  split at hyield
  · rename_i hstate
    cases hyield
    exact ⟨rfl, Or.inl hstate⟩
  · split at hyield
    · cases hyield
      exact ⟨rfl, Or.inr rfl⟩
    · cases hyield

theorem finish_ok {fiber changed : FiberCell} (hfinish : fiber.finish = .ok changed) :
    changed = ⟨.term, true⟩ := by
  cases hfinish
  rfl

/-- Assumes: the callback has not returned unless the fiber is TERM. A fiber that is resumed has
not returned. -/
theorem Settled.resume {fiber changed : FiberCell} (hsettled : fiber.Settled)
    (hresume : fiber.resume = .ok changed) : fiber.returned = false ∧ changed.Settled := by
  obtain ⟨hstate, hsame⟩ := resume_ok hresume
  have hnot : fiber.returned = false := by
    by_contra hreturned
    exact hstate (hsettled (Bool.eq_true_of_not_eq_false hreturned))
  refine ⟨hnot, ?_⟩
  intro hreturned
  rw [hsame, hnot] at hreturned
  exact absurd hreturned Bool.false_ne_true

theorem Settled.change {fiber changed : FiberCell} (hsettled : fiber.Settled)
    (hchanged : fiber.reset = .ok changed ∨ fiber.yield = .ok changed ∨
      fiber.finish = .ok changed) : changed.Settled := by
  rcases hchanged with hreset | hyield | hfinish
  · rw [reset] at hreset
    split at hreset
    · cases hreset
      intro hreturned
      exact absurd hreturned Bool.false_ne_true
    · cases hreset
  · obtain ⟨hsame, hrunning | hkept⟩ := yield_ok hyield
    · intro hreturned
      rw [hsame] at hreturned
      exact absurd (hrunning.symm.trans (hsettled hreturned)) (by decide)
    · rw [hkept]
      exact hsettled
  · rw [finish_ok hfinish]
    exact fun _ ↦ rfl

end FiberCell

namespace WorkerLoops

/-- The workers at the start of `run`, each with a new idle fiber. -/
def init : WorkerLoops := ⟨[], [], false, false, fun _ ↦ .new, fun _ ↦ .looking⟩

/-- A worker goes to another place of its loop. -/
def setPlace (s : WorkerLoops) (worker : ℕ) (place : LoopPlace) : WorkerLoops :=
  { s with place := Function.update s.place worker place }

/-- The idle fiber of a worker changes. -/
def setIdleFiber (s : WorkerLoops) (worker : ℕ) (fiber : FiberCell) : WorkerLoops :=
  { s with idleFiber := Function.update s.idleFiber worker fiber }

/-- `idleFiber->setIdle(); idleFiber->resume();`. -/
def resumeIdle (s : WorkerLoops) (worker : ℕ) : Except Fault (LoopEvent × WorkerLoops) :=
  match (s.idleFiber worker).setIdle.resume with
  | .error fault => .error fault
  | .ok fiber =>
    .ok (.resumed (.idle worker) fiber.returned,
      (s.setIdleFiber worker fiber).setPlace worker (if fiber.returned then .ended else .inIdle))

/-- A worker takes the first task, or resumes its idle fiber. -/
def take (s : WorkerLoops) (worker : ℕ) : Except Fault (LoopEvent × WorkerLoops) :=
  match s.tasks with
  | [] => s.resumeIdle worker
  | fiber :: rest => .ok (.quiet, { s with tasks := rest }.setPlace worker (.holding fiber))

/-- An operation on the fiber of a task; afterwards the worker is at `place`. -/
def onTask (s : WorkerLoops) (worker fiber : ℕ) (event : FiberCell → LoopEvent)
    (operation : FiberCell → Except Fault FiberCell) (place : LoopPlace) :
    Except Fault (LoopEvent × WorkerLoops) :=
  match s.fibers[fiber]? with
  | none => .ok (.quiet, s)
  | some cell =>
    match operation cell with
    | .error fault => .error fault
    | .ok changed =>
      .ok (event cell, { s with fibers := s.fibers.set fiber changed }.setPlace worker place)

/-- The idle fiber is at its loop condition. -/
def test (body : IdleBody) (s : WorkerLoops) (worker : ℕ) :
    Except Fault (LoopEvent × WorkerLoops) :=
  let fiber := s.idleFiber worker
  let after := if body.continues s.stopCommand s.hasTimer then fiber.yield else fiber.finish
  match after with
  | .error fault => .error fault
  | .ok fiber =>
    .ok (.tested s.stopCommand s.hasTimer, (s.setIdleFiber worker fiber).setPlace worker .looking)

/-- One step. The step of a worker that is not at that place of its loop changes nothing, and there
is no pointer to a fiber that was not made. -/
def step (body : IdleBody) (action : LoopAction) (s : WorkerLoops) :
    Except Fault (LoopEvent × WorkerLoops) :=
  match action with
  | .scheduleCallback =>
    .ok (.quiet, { s with fibers := s.fibers ++ [.new], tasks := s.tasks ++ [s.fibers.length] })
  | .scheduleFiber fiber =>
    if fiber < s.fibers.length then .ok (.quiet, { s with tasks := s.tasks ++ [fiber] })
    else .ok (.quiet, s)
  | .stop => .ok (.quiet, { s with stopCommand := true })
  | .setTimers present => .ok (.quiet, { s with hasTimer := present })
  | .reset fiber =>
    match s.fibers[fiber]? with
    | none => .ok (.quiet, s)
    | some cell =>
      match cell.reset with
      | .error fault => .error fault
      | .ok changed => .ok (.quiet, { s with fibers := s.fibers.set fiber changed })
  | .take worker =>
    match s.place worker with
    | .looking => s.take worker
    | _ => .ok (.quiet, s)
  | .resume worker =>
    match s.place worker with
    | .holding fiber =>
      s.onTask worker fiber (fun cell ↦ .resumed (.task fiber) cell.returned) FiberCell.resume
        (.inTask fiber)
    | _ => .ok (.quiet, s)
  | .yield worker =>
    match s.place worker with
    | .inTask fiber => s.onTask worker fiber (fun _ ↦ .quiet) FiberCell.yield .looking
    | _ => .ok (.quiet, s)
  | .finish worker =>
    match s.place worker with
    | .inTask fiber => s.onTask worker fiber (fun _ ↦ .quiet) FiberCell.finish .looking
    | _ => .ok (.quiet, s)
  | .test worker =>
    match s.place worker with
    | .inIdle => s.test body worker
    | _ => .ok (.quiet, s)

/-- What a step does to the fibers, in four forms. -/
inductive Effect (body : IdleBody) (s next : WorkerLoops) : LoopAction → LoopEvent → Prop
  /-- At most a new fiber is made. -/
  | keep {action : LoopAction} (hfibers : next.fibers = s.fibers ∨ next.fibers = s.fibers ++ [.new])
      (hidle : next.idleFiber = s.idleFiber) : Effect body s next action .quiet
  /-- The fiber of a task changes without being resumed. -/
  | change {action : LoopAction} {fiber : ℕ} {cell changed : FiberCell}
      (hcell : s.fibers[fiber]? = some cell)
      (hchanged : cell.reset = .ok changed ∨ cell.yield = .ok changed ∨ cell.finish = .ok changed)
      (hfibers : next.fibers = s.fibers.set fiber changed)
      (hidle : next.idleFiber = s.idleFiber) : Effect body s next action .quiet
  /-- The fiber of a task is resumed. -/
  | resumeTask {action : LoopAction} {fiber : ℕ} {cell changed : FiberCell}
      (hcell : s.fibers[fiber]? = some cell) (hchanged : cell.resume = .ok changed)
      (hfibers : next.fibers = s.fibers.set fiber changed)
      (hidle : next.idleFiber = s.idleFiber) :
      Effect body s next action (.resumed (.task fiber) cell.returned)
  /-- A worker that finds no task resumes its idle fiber. -/
  | resumeIdle {worker : ℕ} {changed : FiberCell}
      (hchanged : (s.idleFiber worker).setIdle.resume = .ok changed)
      (hfibers : next.fibers = s.fibers)
      (hidle : next.idleFiber = Function.update s.idleFiber worker changed) :
      Effect body s next (.take worker) (.resumed (.idle worker) changed.returned)
  /-- The idle fiber tests its loop condition. -/
  | test {worker : ℕ} {changed : FiberCell}
      (hchanged : (if body.continues s.stopCommand s.hasTimer then (s.idleFiber worker).yield
        else (s.idleFiber worker).finish) = .ok changed)
      (hfibers : next.fibers = s.fibers)
      (hidle : next.idleFiber = Function.update s.idleFiber worker changed) :
      Effect body s next (.test worker) (.tested s.stopCommand s.hasTimer)

variable {body : IdleBody} {action : LoopAction} {s next : WorkerLoops} {event : LoopEvent}

/-- An operation on the fiber of a task returns when there is no such fiber, or when the operation
on it does. -/
theorem onTask_cases {worker fiber : ℕ} {shown : FiberCell → LoopEvent}
    {operation : FiberCell → Except Fault FiberCell} {place : LoopPlace}
    (hstep : s.onTask worker fiber shown operation place = .ok (event, next)) :
    (event = .quiet ∧ next = s) ∨
      ∃ cell changed, s.fibers[fiber]? = some cell ∧ operation cell = .ok changed ∧
        event = shown cell ∧ next.fibers = s.fibers.set fiber changed ∧
        next.idleFiber = s.idleFiber := by
  rw [onTask] at hstep
  cases hcell : s.fibers[fiber]? with
  | none =>
    rw [hcell] at hstep
    cases hstep
    exact Or.inl ⟨rfl, rfl⟩
  | some cell =>
    rw [hcell] at hstep
    cases hchanged : operation cell with
    | error fault =>
      simp only [hchanged] at hstep
      cases hstep
    | ok changed =>
      simp only [hchanged] at hstep
      cases hstep
      exact Or.inr ⟨cell, changed, rfl, hchanged, rfl, rfl, rfl⟩

/-- Every step is of one of the forms. -/
theorem step_effect (hstep : step body action s = .ok (event, next)) :
    Effect body s next action event := by
  have hkeep : ∀ {kept : WorkerLoops}, kept = s → Effect body s kept action .quiet :=
    fun hsame ↦ .keep (Or.inl (by rw [hsame])) (by rw [hsame])
  cases action with
  | scheduleCallback =>
    cases hstep
    exact .keep (Or.inr rfl) rfl
  | scheduleFiber fiber =>
    rw [step] at hstep
    split at hstep
    · cases hstep
      exact .keep (Or.inl rfl) rfl
    · cases hstep
      exact hkeep rfl
  | stop =>
    cases hstep
    exact .keep (Or.inl rfl) rfl
  | setTimers present =>
    cases hstep
    exact .keep (Or.inl rfl) rfl
  | reset fiber =>
    rw [step] at hstep
    cases hcell : s.fibers[fiber]? with
    | none =>
      rw [hcell] at hstep
      cases hstep
      exact hkeep rfl
    | some cell =>
      rw [hcell] at hstep
      cases hchanged : cell.reset with
      | error fault =>
        simp only [hchanged] at hstep
        cases hstep
      | ok changed =>
        simp only [hchanged] at hstep
        cases hstep
        exact .change hcell (Or.inl hchanged) rfl rfl
  | take worker =>
    rw [step] at hstep
    split at hstep
    · rw [take] at hstep
      split at hstep
      · rw [WorkerLoops.resumeIdle] at hstep
        split at hstep
        · cases hstep
        · rename_i changed hchanged
          cases hstep
          exact .resumeIdle hchanged rfl rfl
      · cases hstep
        exact .keep (Or.inl rfl) rfl
    · cases hstep
      exact hkeep rfl
  | resume worker =>
    rw [step] at hstep
    split at hstep
    · rcases onTask_cases hstep with ⟨rfl, rfl⟩ | ⟨cell, changed, hcell, hchanged, rfl, hf, hi⟩
      · exact hkeep rfl
      · exact .resumeTask hcell hchanged hf hi
    · cases hstep
      exact hkeep rfl
  | yield worker =>
    rw [step] at hstep
    split at hstep
    · rcases onTask_cases hstep with ⟨rfl, rfl⟩ | ⟨cell, changed, hcell, hchanged, rfl, hf, hi⟩
      · exact hkeep rfl
      · exact .change hcell (Or.inr (Or.inl hchanged)) hf hi
    · cases hstep
      exact hkeep rfl
  | finish worker =>
    rw [step] at hstep
    split at hstep
    · rcases onTask_cases hstep with ⟨rfl, rfl⟩ | ⟨cell, changed, hcell, hchanged, rfl, hf, hi⟩
      · exact hkeep rfl
      · exact .change hcell (Or.inr (Or.inr hchanged)) hf hi
    · cases hstep
      exact hkeep rfl
  | test worker =>
    rw [step] at hstep
    split at hstep
    · rw [WorkerLoops.test] at hstep
      split at hstep
      · cases hstep
      · rename_i changed hchanged
        cases hstep
        exact .test hchanged rfl rfl
    · cases hstep
      exact hkeep rfl

/-- The idle fiber of a worker tests its loop condition, and the test fails. -/
def LeavesIdle (body : IdleBody) (worker : ℕ) (entry : LoopAction × LoopEvent) : Prop :=
  entry.1 = .test worker ∧ ∃ stopCommand hasTimer, entry.2 = .tested stopCommand hasTimer ∧
    body.continues stopCommand hasTimer = false

/-- A worker finds `m_tasks` empty. -/
def FindsNoTask (worker : ℕ) (entry : LoopAction × LoopEvent) : Prop :=
  entry.1 = .take worker ∧ ∃ returned, entry.2 = .resumed (.idle worker) returned

/-- A fiber is resumed whose callback has returned. -/
def ResumesFinished (entry : LoopAction × LoopEvent) : Prop :=
  ∃ fiber, entry.2 = .resumed fiber true

/-- After its idle loop was left, a worker always finds a task. -/
def NotIdleAgain (body : IdleBody) (first later : LoopAction × LoopEvent) : Prop :=
  ∀ worker, LeavesIdle body worker first → ¬ FindsNoTask worker later

/-- What a run keeps: fibers of tasks that have returned are TERM, and an idle fiber has returned
when a test of its loop condition has failed. -/
structure Kept (body : IdleBody) (trace : List (LoopAction × LoopEvent)) (s : WorkerLoops) :
    Prop where
  settled : ∀ cell ∈ s.fibers, cell.Settled
  left : ∀ worker, (s.idleFiber worker).returned = true ↔
    ∃ entry ∈ trace, LeavesIdle body worker entry

variable {trace : List (LoopAction × LoopEvent)}

theorem kept_init (body : IdleBody) : Kept body [] init := by
  refine ⟨fun cell hmem ↦ absurd hmem List.not_mem_nil, ?_⟩
  intro worker
  refine iff_of_false Bool.false_ne_true ?_
  rintro ⟨entry, hmem, -⟩
  exact absurd hmem List.not_mem_nil

/-- The fibers of tasks stay settled. -/
theorem Kept.effect_settled (hs : Kept body trace s) (heffect : Effect body s next action event) :
    ∀ cell ∈ next.fibers, cell.Settled := by
  have hset : ∀ {fiber : ℕ} {changed : FiberCell}, changed.Settled →
      ∀ cell ∈ s.fibers.set fiber changed, cell.Settled := by
    intro fiber changed hchanged cell hmem
    rcases List.mem_or_eq_of_mem_set hmem with hold | hnew
    · exact hs.settled cell hold
    · rw [hnew]
      exact hchanged
  cases heffect with
  | keep hfibers hidle =>
    rcases hfibers with hsame | hmore
    · rw [hsame]
      exact hs.settled
    · rw [hmore]
      intro cell hmem
      rcases List.mem_append.mp hmem with hold | hnew
      · exact hs.settled cell hold
      · rw [List.mem_singleton.mp hnew]
        exact fun hreturned ↦ absurd hreturned Bool.false_ne_true
  | change hcell hchanged hfibers hidle =>
    rw [hfibers]
    exact hset ((hs.settled _ (List.mem_of_getElem? hcell)).change hchanged)
  | resumeTask hcell hchanged hfibers hidle =>
    rw [hfibers]
    exact hset ((hs.settled _ (List.mem_of_getElem? hcell)).resume hchanged).2
  | resumeIdle hchanged hfibers hidle =>
    rw [hfibers]
    exact hs.settled
  | test hchanged hfibers hidle =>
    rw [hfibers]
    exact hs.settled

/-- Only a failed test makes an idle fiber return, and nothing takes that back. -/
theorem Effect.returned_iff (heffect : Effect body s next action event) (worker : ℕ) :
    (next.idleFiber worker).returned = true ↔
      (s.idleFiber worker).returned = true ∨ LeavesIdle body worker (action, event) := by
  have hquiet : ∀ {action : LoopAction} {event : LoopEvent} (_ : ∀ a b, event ≠ .tested a b),
      ¬ LeavesIdle body worker (action, event) := by
    rintro action event hevent ⟨-, stopCommand, hasTimer, htested, -⟩
    exact hevent stopCommand hasTimer htested
  cases heffect with
  | keep hfibers hidle =>
    rw [hidle, or_iff_left (hquiet fun _ _ ↦ by simp)]
  | change hcell hchanged hfibers hidle =>
    rw [hidle, or_iff_left (hquiet fun _ _ ↦ by simp)]
  | resumeTask hcell hchanged hfibers hidle =>
    rw [hidle, or_iff_left (hquiet fun _ _ ↦ by simp)]
  | resumeIdle hchanged hfibers hidle =>
    rename_i resumed changed
    rw [hidle, or_iff_left (hquiet fun _ _ ↦ by simp)]
    by_cases hsame : worker = resumed
    · rw [hsame, Function.update_self, (FiberCell.resume_ok hchanged).2]
      rfl
    · rw [Function.update_of_ne hsame]
  | test hchanged hfibers hidle =>
    rename_i tested changed
    rw [hidle]
    by_cases hsame : worker = tested
    · rw [hsame, Function.update_self]
      by_cases hcontinues : body.continues s.stopCommand s.hasTimer = true
      · rw [if_pos hcontinues] at hchanged
        rw [(FiberCell.yield_ok hchanged).1, or_iff_left]
        rintro ⟨-, stopCommand, hasTimer, htested, hfails⟩
        cases htested
        exact absurd (hcontinues.symm.trans hfails) Bool.false_ne_true.symm
      · rw [if_neg hcontinues] at hchanged
        rw [FiberCell.finish_ok hchanged]
        exact iff_of_true rfl
          (Or.inr ⟨rfl, _, _, rfl, Bool.eq_false_of_not_eq_true hcontinues⟩)
    · rw [Function.update_of_ne hsame, or_iff_left]
      rintro ⟨htest, -⟩
      exact hsame (LoopAction.test.inj htest).symm

theorem Kept.effect (hs : Kept body trace s) (heffect : Effect body s next action event) :
    Kept body (trace ++ [(action, event)]) next := by
  refine ⟨hs.effect_settled heffect, ?_⟩
  intro worker
  rw [heffect.returned_iff worker, hs.left worker]
  simp only [List.mem_append, List.mem_singleton, or_and_right, exists_or, exists_eq_left]

/-- A finished fiber is resumed exactly when a worker finds no task after its idle loop was left. -/
theorem Kept.resumesFinished_iff (hs : Kept body trace s)
    (heffect : Effect body s next action event) :
    ¬ ResumesFinished (action, event) ↔
      ∀ entry ∈ trace, NotIdleAgain body entry (action, event) := by
  have hquiet : ∀ {action : LoopAction} {event : LoopEvent},
      (∀ fiber, event ≠ .resumed fiber true) → (∀ worker r, event ≠ .resumed (.idle worker) r) →
      (¬ ResumesFinished (action, event) ↔
        ∀ entry ∈ trace, NotIdleAgain body entry (action, event)) := by
    intro action event hfinished hidle
    refine iff_of_true ?_ ?_
    · rintro ⟨fiber, hresumed⟩
      exact hfinished fiber hresumed
    · rintro entry - worker - ⟨-, returned, hresumed⟩
      exact hidle worker returned hresumed
  cases heffect with
  | keep hfibers hidle => exact hquiet (by simp) (by simp)
  | change hcell hchanged hfibers hidle => exact hquiet (by simp) (by simp)
  | resumeTask hcell hchanged hfibers hidle =>
    have hnot := ((hs.settled _ (List.mem_of_getElem? hcell)).resume hchanged).1
    rw [hnot]
    exact hquiet (by simp) (by simp)
  | resumeIdle hchanged hfibers hidle =>
    rename_i worker changed
    have hreturned : changed.returned = (s.idleFiber worker).returned :=
      (FiberCell.resume_ok hchanged).2
    rw [hreturned]
    constructor
    · rintro hnot entry hmem other hleaves ⟨htake, -⟩
      have hsame : worker = other := LoopAction.take.inj htake
      have hleft := (hs.left worker).mpr ⟨entry, hmem, hsame ▸ hleaves⟩
      exact hnot ⟨.idle worker, by rw [hleft]⟩
    · rintro hall ⟨fiber, hresumed⟩
      have hleft : (s.idleFiber worker).returned = true := (LoopEvent.resumed.inj hresumed).2
      obtain ⟨entry, hmem, hleaves⟩ := (hs.left worker).mp hleft
      exact hall entry hmem worker hleaves ⟨rfl, _, rfl⟩
  | test hchanged hfibers hidle => exact hquiet (by simp) (by simp)

/-- Assumes: a run of the workers with any tasks, stop command, timers and resets. No fiber whose
callback has returned is resumed in it exactly when no worker finds `m_tasks` empty after the loop
condition of its `idle` has failed. -/
theorem finished_fiber_resumed_iff {final : WorkerLoops}
    (hrun : Run (step body) (fun _ _ ↦ True) init trace final) :
    (∀ entry ∈ trace, ¬ ResumesFinished entry) ↔ trace.Pairwise (NotIdleAgain body) := by
  let both : List (LoopAction × LoopEvent) → WorkerLoops → Prop := fun trace now ↦
    Kept body trace now ∧
      ((∀ entry ∈ trace, ¬ ResumesFinished entry) ↔ trace.Pairwise (NotIdleAgain body))
  have hstart : both [] init := by
    refine ⟨kept_init body, ?_⟩
    exact iff_of_true (fun _ hmem ↦ absurd hmem List.not_mem_nil) List.Pairwise.nil
  refine (hrun.history_invariant hstart ?_).2
  rintro trace now action event next ⟨hkept, hiff⟩ - hstep
  have heffect := step_effect hstep
  refine ⟨hkept.effect heffect, ?_⟩
  rw [List.pairwise_append, List.forall_mem_append, List.forall_mem_singleton, hiff,
    hkept.resumesFinished_iff heffect]
  simp only [List.pairwise_singleton, List.mem_singleton, forall_eq, true_and]

/-- A worker goes through its idle loop, and finds no task again before the stop command. -/
theorem finished_fiber_resumed_iff_waiting :
    ∃ final, Run (step .ioManager) (fun _ _ ↦ True) init
        [(.take 0, .resumed (.idle 0) false), (.test 0, .tested false false),
          (.take 0, .resumed (.idle 0) false)] final ∧
      List.Pairwise (NotIdleAgain .ioManager) [(.take 0, .resumed (.idle 0) false),
        (.test 0, .tested false false), (.take 0, .resumed (.idle 0) false)] := by
  have hempty : Run (step .ioManager) (fun _ _ ↦ True) init [] init := Run.nil
  have htake := hempty.snoc trivial (show step .ioManager (.take 0) _ = .ok (_, _) from rfl)
  have htest := htake.snoc trivial (show step .ioManager (.test 0) _ = .ok (_, _) from rfl)
  have hagain := htest.snoc trivial (show step .ioManager (.take 0) _ = .ok (_, _) from rfl)
  have hnone : ∀ entry ∈ [(LoopAction.take 0, LoopEvent.resumed (.idle 0) false),
      (.test 0, .tested false false), (.take 0, .resumed (.idle 0) false)],
      ¬ ResumesFinished entry := by
    simp [ResumesFinished]
  exact ⟨_, hagain, (finished_fiber_resumed_iff hagain).mp hnone⟩

/-- After the stop command `IOManager::idle` returns at its first test, and the worker, which finds
no task again, resumes the finished fiber. -/
theorem finished_idle_fiber_resumed :
    ¬ ∀ (body : IdleBody) (trace : List (LoopAction × LoopEvent)) (final : WorkerLoops),
      Run (step body) (fun _ _ ↦ True) init trace final →
      ∀ entry ∈ trace, ¬ ResumesFinished entry := by
  intro hall
  have hempty : Run (step .ioManager) (fun _ _ ↦ True) init [] init := Run.nil
  have hstop := hempty.snoc trivial (show step .ioManager .stop _ = .ok (_, _) from rfl)
  have htake := hstop.snoc trivial (show step .ioManager (.take 0) _ = .ok (_, _) from rfl)
  have htest := htake.snoc trivial (show step .ioManager (.test 0) _ = .ok (_, _) from rfl)
  have hagain := htest.snoc trivial (show step .ioManager (.take 0) _ = .ok (_, _) from rfl)
  exact hall _ _ _ hagain _ List.mem_concat_self ⟨.idle 0, rfl⟩

end WorkerLoops

end Cczoe.Scheduler
