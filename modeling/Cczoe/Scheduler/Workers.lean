import Cczoe.Scheduler.EventTable

/-!
# The workers of `scheduler.cpp`

Every worker thread runs the loop of `Scheduler::run`: it takes a task from `m_tasks` under the
mutex and resumes it, or runs `idle` when there is none. The fiber it resumes acts on the event
table and calls `schedule`, until it yields or its function returns. A `System` is the event table
with the fibers made so far, `m_tasks` and what each worker is doing. Its moves are the steps that
the threads take in any order: taking a task and resuming it are two of them, because the mutex is
released in between, and so are `addEvent` and the `yield` that follows it in `do_io`.

Fibers are numbered in the order in which they are made. The main fiber and the idle fiber of a
worker are resumed by that worker only and have no number.
-/

set_option autoImplicit false
set_option relaxedAutoImplicit false

namespace Cczoe.Scheduler

/-- `Fiber::State`. -/
inductive FiberState
  | init
  | running
  | term
  | ready
  deriving DecidableEq, Repr

/-- Where a worker is in the loop of `Scheduler::run`. -/
inductive Worker
  /-- Before it looks for a task. -/
  | looking
  /-- With a task it has taken, before `task->resume()`. -/
  | holding (fiber : ℕ)
  /-- In the fiber it has resumed. -/
  | running (fiber : ℕ)
  /-- In `idle`. -/
  | idle
  deriving DecidableEq, Repr

/-- An `IOManager` with its workers. -/
structure System (κ : Type) where
  io : IOManager κ
  fibers : List FiberState
  tasks : List ℕ
  workers : ℕ → Worker

/-- The moves of the threads. -/
inductive Move
  /-- `schedule(task)`, called by a fiber, by `idle` for an expired timer or from another thread. -/
  | schedule (task : Task)
  /-- A call on the event table by what runs on a worker. -/
  | call (worker : ℕ) (action : Action)
  /-- A worker takes the first task, or enters `idle`. -/
  | take (worker : ℕ)
  /-- `task->resume()`. -/
  | resume (worker : ℕ)
  /-- The fiber on a worker calls `yield`. -/
  | yield (worker : ℕ)
  /-- The function of the fiber on a worker returns. -/
  | finish (worker : ℕ)
  /-- `idle` yields. -/
  | leave (worker : ℕ)
  deriving DecidableEq, Repr

/-- What a move means for a fiber. -/
inductive Turn
  | resumed (fiber : ℕ)
  | paused (fiber : ℕ)
  deriving DecidableEq, Repr

/-- The tasks that calls of `triggerEvent` hand over. -/
def tasksOf (triggers : List Trigger) : List Task := triggers.filterMap Trigger.task

namespace System

variable {κ : Type} (ctl : κ → CtlOp → Fd → Events → Bool × κ)

/-- No task has been scheduled yet. -/
def init (kernel : κ) : System κ := ⟨IOManager.init kernel, [], [], fun _ ↦ .looking⟩

/-- `schedule(task)`: a callback gets a new fiber. A RUNNING fiber is only logged, and put into
`m_tasks` like any other. There is no pointer to a fiber that was not made. -/
def schedule (s : System κ) : Task → System κ
  | .callback _ =>
    { s with fibers := s.fibers ++ [.init], tasks := s.tasks ++ [s.fibers.length] }
  | .fiber fiber =>
    if fiber < s.fibers.length then { s with tasks := s.tasks ++ [fiber] } else s

/-- The tasks are scheduled one after the other. -/
def scheduleAll (s : System κ) (tasks : List Task) : System κ := tasks.foldl schedule s

/-- The action that a call from a worker amounts to. `idle` works off reports; a fiber calls the
other operations, and is the fiber that `addEvent` finds. -/
def performed (s : System κ) (worker : ℕ) (action : Action) : Option Action :=
  match s.workers worker, action with
  | .idle, .report fd mask => some (.report fd mask)
  | .running fiber, .addEvent fd event _ cb =>
    some (.addEvent fd event ⟨some 0, fiber, s.fibers[fiber]? = some .running⟩ cb)
  | .running _, .delEvent fd event => some (.delEvent fd event)
  | .running _, .cancelEvent fd event => some (.cancelEvent fd event)
  | .running _, .cancelAll fd => some (.cancelAll fd)
  | _, _ => none

/-- An action on the event table, and the tasks it hands over. -/
def act (action : Action) (s : System κ) : Except Fault (Option Turn × System κ) :=
  match IOManager.step ctl action s.io with
  | .error fault => .error fault
  | .ok (outcome, io) => .ok (none, { s with io := io }.scheduleAll (tasksOf outcome.triggers))

/-- The worker changes to what it does next. -/
def setWorker (s : System κ) (worker : ℕ) (next : Worker) : System κ :=
  { s with workers := Function.update s.workers worker next }

/-- A worker takes the first task, or enters `idle` when there is none. -/
def take (worker : ℕ) (s : System κ) : System κ :=
  match s.tasks with
  | [] => s.setWorker worker .idle
  | fiber :: rest => { s with tasks := rest }.setWorker worker (.holding fiber)

/-- `Fiber::resume`, called by the main fiber of a worker. -/
def resume (worker fiber : ℕ) (s : System κ) : Except Fault (Option Turn × System κ) :=
  match s.fibers[fiber]? with
  | some .init | some .ready =>
    .ok (some (.resumed fiber),
      { s with fibers := s.fibers.set fiber .running }.setWorker worker (.running fiber))
  | _ => .error (.assertion "m_state != TERM && m_state != RUNNING")

/-- `Fiber::yield`, called by the fiber. -/
def yield (worker fiber : ℕ) (s : System κ) : Except Fault (Option Turn × System κ) :=
  match s.fibers[fiber]? with
  | some .running =>
    .ok (some (.paused fiber),
      { s with fibers := s.fibers.set fiber .ready }.setWorker worker .looking)
  | some .term => .ok (some (.paused fiber), s.setWorker worker .looking)
  | _ => .error (.assertion "m_state == RUNNING || m_state == TERM")

/-- The end of `Fiber::mainFunc`. -/
def finish (worker fiber : ℕ) (s : System κ) : Except Fault (Option Turn × System κ) :=
  { s with fibers := s.fibers.set fiber .term }.yield worker fiber

/-- One move. The move of a worker that is not at that place of its loop changes nothing. -/
def step (move : Move) (s : System κ) : Except Fault (Option Turn × System κ) :=
  match move with
  | .schedule task => .ok (none, s.schedule task)
  | .call worker action =>
    match s.performed worker action with
    | some action => s.act ctl action
    | none => .ok (none, s)
  | .take worker =>
    match s.workers worker with
    | .looking => .ok (none, s.take worker)
    | _ => .ok (none, s)
  | .resume worker =>
    match s.workers worker with
    | .holding fiber => s.resume worker fiber
    | _ => .ok (none, s)
  | .yield worker =>
    match s.workers worker with
    | .running fiber => s.yield worker fiber
    | _ => .ok (none, s)
  | .finish worker =>
    match s.workers worker with
    | .running fiber => s.finish worker fiber
    | _ => .ok (none, s)
  | .leave worker =>
    match s.workers worker with
    | .idle => .ok (none, s.setWorker worker .looking)
    | _ => .ok (none, s)

end System

end Cczoe.Scheduler
