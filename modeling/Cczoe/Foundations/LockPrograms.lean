import Mathlib.Data.Nat.Notation
import Mathlib.Logic.Function.Basic
import Mathlib.Tactic.SplitIfs

/-!
# Programs under a reader-writer lock

A program of one thread on a shared memory that a reader-writer lock protects. A program leaves a
trace of what it does with the lock: requests, releases, modifications of what the lock protects,
and calls that must be made without it. `follow` is the discipline as a machine over the lock's
state as the thread sees it: no request while it holds the lock, no release without it, no
modification but under the write lock, no callback under the lock. `Legal held trace after` says
that the machine accepts the trace.

Other threads run whenever the thread does not hold the lock: `others` is what they make of the
memory by the time the thread is granted the lock, or looks at the memory without it. A program is
a function of `others` and of the memory, so a statement about all of them is a statement about
every path.

`Keeps held program after` is a triple: started with the lock in state `held`, the program adds a
legal trace and ends with the lock in state `after`. It is closed under sequencing
(`Keeps.bind`), branching (`Keeps.ite`) and scoped locking (`Keeps.underLock`). `Computes` says
what a program computes when no other thread runs, with the same rules.
-/

set_option autoImplicit false
set_option relaxedAutoImplicit false

namespace Cczoe.Foundations.LockPrograms

/-- The two ways to hold a reader-writer lock. -/
inductive Mode
  | read
  | write
  deriving DecidableEq, Repr

/-- What a program does that the discipline is about. -/
inductive Event
  | request (mode : Mode)
  | unlock
  | modify
  | callback
  deriving DecidableEq, Repr

/-- The lock as the thread holds it after an event, or nothing when the event is forbidden. -/
def follow : Option Mode → Event → Option (Option Mode)
  | none, .request mode => some (some mode)
  | some _, .unlock => some none
  | some .write, .modify => some (some .write)
  | none, .callback => some none
  | _, _ => none

/-- Every event of the trace is allowed, from the lock held as `held` to the lock held as
`after`. -/
def Legal (held : Option Mode) (trace : List Event) (after : Option Mode) : Prop :=
  trace.foldlM follow held = some after

instance (held : Option Mode) (trace : List Event) (after : Option Mode) :
    Decidable (Legal held trace after) :=
  inferInstanceAs (Decidable (_ = _))

theorem legal_nil (held : Option Mode) : Legal held [] held := rfl

theorem legal_cons_iff {held after : Option Mode} {event : Event} {rest : List Event} :
    Legal held (event :: rest) after ↔
      ∃ next, follow held event = some next ∧ Legal next rest after := by
  rw [Legal, List.foldlM_cons]
  cases hfollow : follow held event with
  | none => simp
  | some next => simp [Legal]

theorem Legal.append {held middle after : Option Mode} {first second : List Event}
    (hfirst : Legal held first middle) (hsecond : Legal middle second after) :
    Legal held (first ++ second) after := by
  rw [Legal, List.foldlM_append, hfirst]
  exact hsecond

/-! ### Programs -/

/-- The shared memory and one thread: how often others have been let in, how the thread holds the
lock, and what it has done. -/
structure Thread (σ : Type) where
  memory : σ
  turn : ℕ := 0
  held : Option Mode := none
  trace : List Event := []

variable {σ α β : Type}

/-- A program of the thread, given what the other threads do to the memory. -/
def LockM (σ α : Type) : Type := (ℕ → σ → σ) → Thread σ → α × Thread σ

instance : Monad (LockM σ) where
  pure a := fun _ thread ↦ (a, thread)
  bind program next := fun others thread ↦
    let done := program others thread
    next done.1 others done.2

/-- The other threads run, unless this one holds the lock. -/
def Thread.letIn (others : ℕ → σ → σ) (thread : Thread σ) : Thread σ :=
  if thread.held = none then
    { thread with memory := others thread.turn thread.memory, turn := thread.turn + 1 }
  else thread

namespace LockM

/-- `rdlock` and `wrlock`. The result of the call is not looked at, so the program goes on. -/
def request (mode : Mode) : LockM σ Unit := fun others thread ↦
  let granted := thread.letIn others
  ((), { granted with held := some mode, trace := granted.trace ++ [.request mode] })

def unlock : LockM σ Unit := fun _ thread ↦
  ((), { thread with held := none, trace := thread.trace ++ [.unlock] })

/-- Reads the shared memory. -/
def look (get : σ → α) : LockM σ α := fun others thread ↦
  let seen := thread.letIn others
  (get seen.memory, seen)

/-- Changes what the lock protects, with a result. -/
def modify (change : σ → α × σ) : LockM σ α := fun _ thread ↦
  let changed := change thread.memory
  (changed.1, { thread with memory := changed.2, trace := thread.trace ++ [.modify] })

/-- Changes memory that the discipline is not about. -/
def assign (change : σ → σ) : LockM σ Unit := fun _ thread ↦
  ((), { thread with memory := change thread.memory })

/-- A call that must be made without the lock. -/
def callback : LockM σ Unit := fun _ thread ↦
  ((), { thread with trace := thread.trace ++ [.callback] })

/-- A scoped lock: its constructor requests the lock and its destructor releases it. -/
def underLock (mode : Mode) (body : LockM σ α) : LockM σ α := do
  request mode
  let result ← body
  unlock
  return result

/-- The trace of a program that starts without the lock. -/
def traceOf (program : LockM σ α) (others : ℕ → σ → σ) (memory : σ) : List Event :=
  (program others { memory := memory }).2.trace

end LockM

/-! ### Triples -/

/-- Started with the lock held as `held`, the program adds a legal trace that ends with the lock
held as `after`, whatever the memory is and the other threads do. -/
def Keeps (held : Option Mode) (program : LockM σ α) (after : Option Mode) : Prop :=
  ∀ (others : ℕ → σ → σ) (thread : Thread σ), thread.held = held →
    ∃ added, (program others thread).2.trace = thread.trace ++ added ∧
      Legal held added after ∧ (program others thread).2.held = after

theorem Thread.letIn_trace (others : ℕ → σ → σ) (thread : Thread σ) :
    (thread.letIn others).trace = thread.trace := by
  unfold Thread.letIn
  split_ifs <;> rfl

theorem Thread.letIn_held (others : ℕ → σ → σ) (thread : Thread σ) :
    (thread.letIn others).held = thread.held := by
  unfold Thread.letIn
  split_ifs <;> rfl

namespace Keeps

open LockM

variable {held middle after : Option Mode}

theorem pure (held : Option Mode) (a : α) : Keeps held (Pure.pure a : LockM σ α) held :=
  fun _ _ hheld ↦ ⟨[], (List.append_nil _).symm, legal_nil held, hheld⟩

theorem bind {program : LockM σ α} {next : α → LockM σ β} (hprogram : Keeps held program middle)
    (hnext : ∀ a, Keeps middle (next a) after) : Keeps held (program >>= next) after := by
  intro others thread hheld
  obtain ⟨first, htrace, hfirst, hmiddle⟩ := hprogram others thread hheld
  obtain ⟨second, htrace', hsecond, hafter⟩ := hnext _ others _ hmiddle
  refine ⟨first ++ second, ?_, hfirst.append hsecond, hafter⟩
  rw [← List.append_assoc, ← htrace]
  exact htrace'

theorem ite {condition : Prop} [Decidable condition] {yes no : LockM σ α}
    (hyes : Keeps held yes after) (hno : Keeps held no after) :
    Keeps held (if condition then yes else no) after := by
  split_ifs
  · exact hyes
  · exact hno

theorem request (mode : Mode) : Keeps none (LockM.request (σ := σ) mode) (some mode) := by
  intro others thread hheld
  refine ⟨[.request mode], ?_, rfl, rfl⟩
  exact congrArg (· ++ [Event.request mode]) (thread.letIn_trace others)

theorem unlock (mode : Mode) : Keeps (some mode) (LockM.unlock (σ := σ)) none :=
  fun _ _ _ ↦ ⟨[.unlock], rfl, rfl, rfl⟩

theorem look (held : Option Mode) (get : σ → α) : Keeps held (LockM.look get) held := by
  intro others thread hheld
  refine ⟨[], ?_, legal_nil held, ?_⟩
  · rw [List.append_nil]
    exact thread.letIn_trace others
  · rw [← hheld]
    exact thread.letIn_held others

theorem modify (change : σ → α × σ) :
    Keeps (some .write) (LockM.modify change) (some .write) :=
  fun _ _ hheld ↦ ⟨[.modify], rfl, rfl, hheld⟩

theorem assign (held : Option Mode) (change : σ → σ) : Keeps held (LockM.assign change) held :=
  fun _ _ hheld ↦ ⟨[], (List.append_nil _).symm, legal_nil held, hheld⟩

theorem callback : Keeps none (LockM.callback (σ := σ)) none :=
  fun _ _ hheld ↦ ⟨[.callback], rfl, rfl, hheld⟩

/-- Assumes: a body that keeps the lock in a mode. Scoped locking in that mode starts and ends
without the lock. -/
theorem underLock {mode : Mode} {body : LockM σ α} (hbody : Keeps (some mode) body (some mode)) :
    Keeps none (LockM.underLock mode body) none :=
  (Keeps.request mode).bind fun _ ↦ hbody.bind fun result ↦
    (Keeps.unlock mode).bind fun _ ↦ Keeps.pure none result

/-- A program that keeps the lock free leaves a legal trace. -/
theorem legal_traceOf {program : LockM σ α} (hprogram : Keeps none program none)
    (others : ℕ → σ → σ) (memory : σ) : Legal none (program.traceOf others memory) none := by
  obtain ⟨added, htrace, hlegal, -⟩ := hprogram others { memory := memory } rfl
  rw [LockM.traceOf, htrace]
  exact hlegal

end Keeps

/-! ### What a program computes -/

/-- When no other thread runs, the program returns and leaves what `f` makes of the memory. -/
def Computes (program : LockM σ α) (f : σ → α × σ) : Prop :=
  ∀ thread : Thread σ, ((program (fun _ found ↦ found) thread).1,
    (program (fun _ found ↦ found) thread).2.memory) = f thread.memory

theorem Thread.letIn_memory_alone (thread : Thread σ) :
    (thread.letIn fun _ found ↦ found).memory = thread.memory := by
  unfold Thread.letIn
  split_ifs <;> rfl

namespace Computes

open LockM

theorem of_eq {program : LockM σ α} {f g : σ → α × σ} (hprogram : Computes program f)
    (heq : ∀ memory, f memory = g memory) : Computes program g :=
  fun thread ↦ (hprogram thread).trans (heq thread.memory)

theorem pure (a : α) : Computes (Pure.pure a : LockM σ α) fun memory ↦ (a, memory) :=
  fun _ ↦ rfl

theorem bind {program : LockM σ α} {next : α → LockM σ β} {f : σ → α × σ} {g : α → σ → β × σ}
    (hprogram : Computes program f) (hnext : ∀ a, Computes (next a) (g a)) :
    Computes (program >>= next) fun memory ↦ g (f memory).1 (f memory).2 := by
  intro thread
  have hfirst : ((program (fun _ found ↦ found) thread).1,
      (program (fun _ found ↦ found) thread).2.memory) = f thread.memory := hprogram thread
  change _ = g (f thread.memory).1 (f thread.memory).2
  rw [← hfirst]
  exact hnext _ _

theorem ite {condition : Prop} [Decidable condition] {yes no : LockM σ α} {f g : σ → α × σ}
    (hyes : Computes yes f) (hno : Computes no g) :
    Computes (if condition then yes else no) fun memory ↦
      if condition then f memory else g memory := by
  split_ifs
  · exact hyes
  · exact hno

theorem request (mode : Mode) :
    Computes (LockM.request (σ := σ) mode) fun memory ↦ ((), memory) :=
  fun thread ↦ congrArg (Prod.mk ()) thread.letIn_memory_alone

theorem unlock : Computes (LockM.unlock (σ := σ)) fun memory ↦ ((), memory) :=
  fun _ ↦ rfl

theorem look (get : σ → α) : Computes (LockM.look get) fun memory ↦ (get memory, memory) := by
  intro thread
  exact congrArg (fun memory ↦ (get memory, memory)) thread.letIn_memory_alone

theorem modify (change : σ → α × σ) : Computes (LockM.modify change) change :=
  fun _ ↦ rfl

theorem assign (change : σ → σ) :
    Computes (LockM.assign change) fun memory ↦ ((), change memory) :=
  fun _ ↦ rfl

theorem callback : Computes (LockM.callback (σ := σ)) fun memory ↦ ((), memory) :=
  fun _ ↦ rfl

theorem underLock {mode : Mode} {body : LockM σ α} {f : σ → α × σ} (hbody : Computes body f) :
    Computes (LockM.underLock mode body) f :=
  (Computes.request mode).bind fun _ ↦ hbody.bind fun result ↦
    Computes.unlock.bind fun _ ↦ Computes.pure result

end Computes

end Cczoe.Foundations.LockPrograms
