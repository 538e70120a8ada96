import Mathlib.Logic.Basic

/-!
# Runs of a guarded step function

A step function takes an action and a state, and stops with a fault or returns an output and the
next state. A `Run` is a finite sequence of steps that return, each from a state in which a guard
allows its action; it keeps the trace of actions and outputs. `Run.history_invariant` is the
induction rule: what holds at the start and is kept by every guarded step holds at the end of every
run, for the trace and the state together. `Run.exists_step` takes a run apart at a step. The trace
determines where a run ends (`Run.deterministic`), and `Run.change_guard` goes over to another
guard. A step put together from calls is evaluated by `ok_bind` and `error_bind`, and taken apart by
`bind_eq_ok`.
-/

set_option autoImplicit false
set_option relaxedAutoImplicit false

namespace Cczoe.Foundations

variable {α ε ο σ : Type}

/-! ### Calls one after the other -/

section Calls

variable {β : Type}

@[simp] theorem ok_bind (a : α) (f : α → Except ε β) : (Except.ok a >>= f) = f a := rfl

@[simp] theorem error_bind (fault : ε) (f : α → Except ε β) :
    (Except.error fault >>= f) = .error fault := rfl

@[simp] theorem pure_eq_ok (a : α) : (pure a : Except ε α) = .ok a := rfl

/-- A bind that returns, taken apart. -/
theorem bind_eq_ok {x : Except ε α} {f : α → Except ε β} {result : β}
    (hbind : (x >>= f) = .ok result) : ∃ value, x = .ok value ∧ f value = .ok result := by
  cases x with
  | error fault => cases hbind
  | ok value => exact ⟨value, rfl, hbind⟩

end Calls

/-! ### Runs -/

/-- Runs from `start` with their trace, last step last. -/
inductive Run (step : α → σ → Except ε (ο × σ)) (guard : σ → α → Prop) (start : σ) :
    List (α × ο) → σ → Prop
  | nil : Run step guard start [] start
  | snoc {trace : List (α × ο)} {now next : σ} {action : α} {output : ο} :
      Run step guard start trace now → guard now action → step action now = .ok (output, next) →
      Run step guard start (trace ++ [(action, output)]) next

variable {step : α → σ → Except ε (ο × σ)} {guard : σ → α → Prop} {start : σ}

/-- Assumes: an invariant of trace and state that holds at the start and is kept by every guarded
step. It holds at the end of every run. -/
theorem Run.history_invariant {invariant : List (α × ο) → σ → Prop} (hstart : invariant [] start)
    (hstep : ∀ trace now action output next, invariant trace now → guard now action →
      step action now = .ok (output, next) → invariant (trace ++ [(action, output)]) next)
    {trace : List (α × ο)} {final : σ} (hrun : Run step guard start trace final) :
    invariant trace final := by
  induction hrun with
  | nil => exact hstart
  | snoc hbefore hguard hstepped ih => exact hstep _ _ _ _ _ ih hguard hstepped

/-- Assumes: an invariant of the state that holds at the start, and that every guarded step keeps
and answers with an output that meets a condition. The invariant holds at the end of every run and
all outputs of the trace meet the condition. -/
theorem Run.invariant {invariant : σ → Prop} {good : α → ο → Prop} (hstart : invariant start)
    (hstep : ∀ now action output next, invariant now → guard now action →
      step action now = .ok (output, next) → invariant next ∧ good action output)
    {trace : List (α × ο)} {final : σ} (hrun : Run step guard start trace final) :
    invariant final ∧ ∀ entry ∈ trace, good entry.1 entry.2 := by
  let both : List (α × ο) → σ → Prop := fun trace now ↦
    invariant now ∧ ∀ entry ∈ trace, good entry.1 entry.2
  have hboth : both [] start := ⟨hstart, fun _ hmem ↦ absurd hmem List.not_mem_nil⟩
  refine hrun.history_invariant hboth ?_
  rintro trace now action output next ⟨hnow, htrace⟩ hguard hstepped
  obtain ⟨hnext, hgood⟩ := hstep now action output next hnow hguard hstepped
  refine ⟨hnext, ?_⟩
  intro entry hentry
  rcases List.mem_append.mp hentry with hold | hlast
  · exact htrace entry hold
  · rw [List.mem_singleton.mp hlast]
    exact hgood

/-- A run with an empty trace stays where it starts. -/
theorem Run.eq_start {final : σ} {trace : List (α × ο)} (hrun : Run step guard start trace final)
    (htrace : trace = []) : final = start := by
  cases hrun with
  | nil => rfl
  | snoc hbefore hguard hstep => exact absurd htrace (by simp)

/-- A step that a run makes: the run leads up to it, it is allowed and returns what the trace says,
and the rest of the trace is a run from there. -/
theorem Run.exists_step {trace : List (α × ο)} {final : σ}
    (hrun : Run step guard start trace final) {before after : List (α × ο)} {entry : α × ο}
    (hsplit : trace = before ++ entry :: after) :
    ∃ now next, Run step guard start before now ∧ guard now entry.1 ∧
      step entry.1 now = .ok (entry.2, next) ∧ Run step guard next after final := by
  induction hrun generalizing after with
  | nil => exact absurd hsplit (by simp)
  | snoc hbefore hguard hstep ih =>
    rcases List.eq_nil_or_concat after with rfl | ⟨others, last, rfl⟩
    · obtain ⟨rfl, hlast⟩ := List.append_inj' hsplit rfl
      cases hlast
      exact ⟨_, _, hbefore, hguard, hstep, Run.nil⟩
    · rw [List.concat_eq_append, ← List.cons_append, ← List.append_assoc] at hsplit
      obtain ⟨hsame, hlast⟩ := List.append_inj' hsplit rfl
      cases hlast
      obtain ⟨now, next, hrun, hallowed, hstepped, hrest⟩ := ih hsame
      rw [List.concat_eq_append]
      exact ⟨now, next, hrun, hallowed, hstepped, hrest.snoc hguard hstep⟩

/-- Assumes: two runs from one start with one trace, under any guards. They end in one state. -/
theorem Run.deterministic {other : σ → α → Prop} {trace : List (α × ο)} {first second : σ}
    (hfirst : Run step guard start trace first) (hsecond : Run step other start trace second) :
    first = second := by
  induction hfirst generalizing second with
  | nil => exact (hsecond.eq_start rfl).symm
  | snoc hbefore hguard hstep ih =>
    obtain ⟨now, next, hrun, -, hstepped, hrest⟩ := hsecond.exists_step rfl
    cases ih hrun
    cases hstep.symm.trans hstepped
    exact (hrest.eq_start rfl).symm

/-- A run is a run up to every point of its trace. -/
theorem Run.exists_before {trace before : List (α × ο)} {final : σ}
    (hrun : Run step guard start trace final) (hbefore : before <+: trace) :
    ∃ now, Run step guard start before now := by
  obtain ⟨after, rfl⟩ := hbefore
  cases after with
  | nil =>
    rw [List.append_nil] at hrun
    exact ⟨final, hrun⟩
  | cons entry rest =>
    obtain ⟨now, -, hnow, -⟩ := hrun.exists_step rfl
    exact ⟨now, hnow⟩

/-- Assumes: every step of a run is allowed by another guard. It is a run under the other guard. -/
theorem Run.change_guard {other : σ → α → Prop} {trace : List (α × ο)} {final : σ}
    (hrun : Run step guard start trace final)
    (hall : ∀ before entry now next, before ++ [entry] <+: trace →
      Run step guard start before now → guard now entry.1 →
      step entry.1 now = .ok (entry.2, next) → other now entry.1) :
    Run step other start trace final := by
  induction hrun with
  | nil => exact Run.nil
  | snoc hbefore hguard hstep ih =>
    refine Run.snoc (ih ?_) ?_ hstep
    · intro before entry now next hpart
      exact hall before entry now next (hpart.trans (List.prefix_append _ _))
    · exact hall _ (_, _) _ _ (List.prefix_refl _) hbefore hguard hstep

/-- Assumes: a relation to the states of another step function that holds at the start and that
every guarded step keeps, with the same output. Every run has a run of the other step function with
its trace. -/
theorem Run.simulated {τ : Type} {other : α → τ → Except ε (ο × τ)} {related : σ → τ → Prop}
    {start' : τ} (hstart : related start start')
    (hstep : ∀ now now' action output next, related now now' → guard now action →
      step action now = .ok (output, next) →
      ∃ next', other action now' = .ok (output, next') ∧ related next next')
    {trace : List (α × ο)} {final : σ} (hrun : Run step guard start trace final) :
    ∃ final', Run other (fun _ _ ↦ True) start' trace final' ∧ related final final' := by
  induction hrun with
  | nil => exact ⟨start', Run.nil, hstart⟩
  | snoc hbefore hguard hstepped ih =>
    obtain ⟨now', hrun', hnow⟩ := ih
    obtain ⟨next', hstepped', hnext⟩ := hstep _ _ _ _ _ hnow hguard hstepped
    exact ⟨next', hrun'.snoc trivial hstepped', hnext⟩

end Cczoe.Foundations
