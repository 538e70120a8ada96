import Cczoe.Foundations.GuardedRuns
import Cczoe.Scheduler.EventTableLaws

/-!
# Growing the table from several threads

`addEvent` looks a context up in two regions, each under its own acquisition of `m_mutex`: the size
check under the read lock, and, when the table is too short, `fdContextsResize(fd * 1.5)` and the
lookup under the write lock. Any number of threads take turns with these regions. The contexts are
of any type; `fresh` says what the `n`-th resize puts into the places it finds empty, so with
`fresh` the identity a context is told apart by the place it is in and the resize that made it.

The write-locked region does not look at the size again. It keeps the contexts and indexes within
the table exactly when the descriptor is at least `2` and the table has not meanwhile grown beyond
`fd * 1.5`, and along every run of such regions no context is dropped or replaced (`contexts_kept`).
A thread that passed its check before another one grew the table further cuts the table short
(`slower_thread_drops_context`).
-/

set_option autoImplicit false
set_option relaxedAutoImplicit false

namespace Cczoe.Scheduler

open Foundations

variable {γ : Type}

/-- What the lookups of `addEvent` share: `m_fdContexts`, the number of times it was resized, and
the descriptors of the threads between their two regions. -/
structure Growth (γ : Type) where
  contexts : List γ
  resizes : ℕ
  growing : ℕ → Option Fd

/-- The regions of a lookup, by the thread that enters them. -/
inductive Region
  | check (thread : ℕ) (fd : Fd)
  | grow (thread : ℕ)
  deriving DecidableEq, Repr

namespace Growth

/-- No thread has called `addEvent` yet. -/
def init : Growth γ := ⟨[], 0, fun _ ↦ none⟩

/-- `m_fdContexts[fd]`. -/
def index (contexts : List γ) (fd : Fd) : Except Fault γ :=
  match contexts[fd.val]? with
  | none => .error .outOfRange
  | some ctx => .ok ctx

/-- The size check and, when the table is long enough, the lookup. -/
def check (thread : ℕ) (fd : Fd) (s : Growth γ) : Except Fault (Option γ × Growth γ) :=
  if fd < s.contexts.length then do
    let ctx ← index s.contexts fd
    .ok (some ctx, s)
  else .ok (none, { s with growing := Function.update s.growing thread (some fd) })

/-- The resize and the lookup of a thread that found the table too short. -/
def grow (fresh : ℕ → γ) (thread : ℕ) (fd : Fd) (s : Growth γ) :
    Except Fault (Option γ × Growth γ) := do
  let contexts := fdContextsResize (fd * 3 / 2) (fresh s.resizes) s.contexts
  let ctx ← index contexts fd
  .ok (some ctx, ⟨contexts, s.resizes + 1, Function.update s.growing thread none⟩)

/-- One region. A thread between its regions can only enter the second, any other only the first;
the region of a thread that cannot enter it changes nothing. -/
def step (fresh : ℕ → γ) (region : Region) (s : Growth γ) : Except Fault (Option γ × Growth γ) :=
  match region with
  | .check thread fd => if s.growing thread = none then s.check thread fd else .ok (none, s)
  | .grow thread =>
    match s.growing thread with
    | none => .ok (none, s)
    | some fd => s.grow fresh thread fd

end Growth

/-- The condition on a write-locked region: the descriptor is at least `2`, and the table is not
longer than the size it is resized to. -/
def Grows (s : Growth γ) : Region → Prop
  | .check _ _ => True
  | .grow thread => ∀ fd, s.growing thread = some fd → 2 ≤ fd.val ∧ s.contexts.length ≤ fd * 3 / 2

/-! ### One region -/

/-- A region returns, with its index in range, and keeps all contexts. -/
def Keeps (fresh : ℕ → γ) (region : Region) (s : Growth γ) : Prop :=
  ∃ output next, Growth.step fresh region s = .ok (output, next) ∧ s.contexts <+: next.contexts

theorem length_fdContextsResize (size : ℕ) (fresh : γ) (contexts : List γ) :
    (fdContextsResize size fresh contexts).length = size := by
  rw [fdContextsResize, List.length_append, List.length_take, List.length_replicate]
  omega

theorem index_eq_ok {contexts : List γ} {fd : Fd} (hfd : fd.val < contexts.length) :
    ∃ ctx, Growth.index contexts fd = .ok ctx := by
  unfold Growth.index
  rw [List.getElem?_eq_getElem hfd]
  exact ⟨_, rfl⟩

theorem lt_length_of_index {contexts : List γ} {fd : Fd} {ctx : γ}
    (hindex : Growth.index contexts fd = .ok ctx) : fd.val < contexts.length := by
  unfold Growth.index at hindex
  by_contra hbehind
  rw [List.getElem?_eq_none (Nat.le_of_not_lt hbehind)] at hindex
  cases hindex

/-- A read-locked region keeps the table as it is. -/
theorem check_view (thread : ℕ) (fd : Fd) (s : Growth γ) :
    ∃ output next, s.check thread fd = .ok (output, next) ∧ next.contexts = s.contexts := by
  unfold Growth.check
  by_cases hfound : fd < s.contexts.length
  · obtain ⟨ctx, hctx⟩ := index_eq_ok hfound
    rw [if_pos hfound, hctx]
    exact ⟨_, _, rfl, rfl⟩
  · rw [if_neg hfound]
    exact ⟨_, _, rfl, rfl⟩

/-- A write-locked region returns just when the descriptor is at least `2`. -/
theorem grow_eq_ok_iff (fresh : ℕ → γ) (thread : ℕ) (fd : Fd) (s : Growth γ) :
    (∃ output next, s.grow fresh thread fd = .ok (output, next)) ↔ 2 ≤ fd.val := by
  have hlength := length_fdContextsResize (fd * 3 / 2) (fresh s.resizes) s.contexts
  unfold Growth.grow
  constructor
  · rintro ⟨output, next, hgrow⟩
    obtain ⟨ctx, hindex, _⟩ := bind_eq_ok hgrow
    have hfd := lt_length_of_index hindex
    rw [hlength] at hfd
    omega
  · intro hfd
    have hbound : fd.val < fd * 3 / 2 := by omega
    rw [← hlength] at hbound
    obtain ⟨ctx, hindex⟩ := index_eq_ok hbound
    simp only [hindex]
    exact ⟨_, _, rfl⟩

theorem contexts_of_grow {fresh : ℕ → γ} {thread : ℕ} {fd : Fd} {s next : Growth γ}
    {output : Option γ} (hgrow : s.grow fresh thread fd = .ok (output, next)) :
    next.contexts = fdContextsResize (fd * 3 / 2) (fresh s.resizes) s.contexts := by
  obtain ⟨ctx, _, hnext⟩ := bind_eq_ok hgrow
  cases hnext
  rfl

/-- A resize keeps all contexts just when it does not make the table shorter. -/
theorem prefix_fdContextsResize_iff (size : ℕ) (fresh : γ) (contexts : List γ) :
    contexts <+: fdContextsResize size fresh contexts ↔ contexts.length ≤ size := by
  constructor
  · intro hprefix
    have hlength := hprefix.length_le
    rwa [length_fdContextsResize] at hlength
  · intro hsize
    rw [fdContextsResize_eq fresh hsize]
    exact List.prefix_append _ _

/-- A region keeps all contexts and its index in range just when it meets the condition. -/
theorem keeps_iff_grows (fresh : ℕ → γ) (region : Region) (s : Growth γ) :
    Keeps fresh region s ↔ Grows s region := by
  cases region with
  | check thread fd =>
    refine ⟨fun _ ↦ trivial, fun _ ↦ ?_⟩
    by_cases hwaits : s.growing thread = none
    · obtain ⟨output, next, hcheck, hcontexts⟩ := check_view thread fd s
      refine ⟨output, next, (if_pos hwaits).trans hcheck, ?_⟩
      rw [hcontexts]
    · exact ⟨none, s, if_neg hwaits, List.prefix_rfl⟩
  | grow thread =>
    cases hwaits : s.growing thread with
    | none =>
      refine ⟨fun _ fd hfd ↦ ?_, fun _ ↦ ⟨none, s, ?_, List.prefix_rfl⟩⟩
      · rw [hwaits] at hfd
        cases hfd
      · simp only [Growth.step, hwaits]
    | some fd =>
      have hstep : Growth.step fresh (.grow thread) s = s.grow fresh thread fd := by
        simp only [Growth.step, hwaits]
      constructor
      · rintro ⟨output, next, hgrow, hprefix⟩ other hother
        rw [hstep] at hgrow
        rw [contexts_of_grow hgrow, prefix_fdContextsResize_iff] at hprefix
        obtain rfl : fd = other := Option.some.inj (hwaits.symm.trans hother)
        exact ⟨(grow_eq_ok_iff fresh thread fd s).mp ⟨output, next, hgrow⟩, hprefix⟩
      · intro hgrows
        obtain ⟨hfd, hlength⟩ := hgrows fd hwaits
        obtain ⟨output, next, hgrow⟩ := (grow_eq_ok_iff fresh thread fd s).mpr hfd
        refine ⟨output, next, hstep.trans hgrow, ?_⟩
        rw [contexts_of_grow hgrow, prefix_fdContextsResize_iff]
        exact hlength

/-- Assumes: the contexts are made alike. The two regions of one thread with nothing between them do
what the lookup of `addEvent` does in one step. -/
theorem regions_eq_lookup {κ : Type} (io : IOManager κ) (thread : ℕ) (fd : Fd) (resizes : ℕ)
    {checked grown : Growth FdContext} {first second : Option FdContext}
    (hcheck : Growth.step (fun _ ↦ FdContext.fresh) (.check thread fd)
      ⟨io.contexts, resizes, fun _ ↦ none⟩ = .ok (first, checked))
    (hgrow : Growth.step (fun _ ↦ FdContext.fresh) (.grow thread) checked = .ok (second, grown)) :
    grown.contexts = io.lookup fd := by
  unfold IOManager.lookup
  simp only [Growth.step, if_true, Growth.check] at hcheck
  by_cases hfound : fd < io.contexts.length
  · obtain ⟨ctx, hindex⟩ := index_eq_ok hfound
    rw [if_pos hfound, hindex] at hcheck
    cases hcheck
    cases hgrow
    exact (if_pos hfound).symm
  · rw [if_neg hfound] at hcheck
    cases hcheck
    simp only [Growth.step, Function.update_self] at hgrow
    rw [if_neg hfound, contexts_of_grow hgrow]

/-! ### Runs -/

/-- Along every run whose regions meet the condition, from any state, the table keeps every context
it holds, in its place, so it never gets shorter; and in the state reached, a region returns, its
index in range, and keeps the contexts just when it meets the condition. -/
theorem contexts_kept (fresh : ℕ → γ) {start final : Growth γ}
    {trace : List (Region × Option γ)} (hrun : Run (Growth.step fresh) Grows start trace final) :
    start.contexts <+: final.contexts ∧
      ∀ region, Keeps fresh region final ↔ Grows final region := by
  refine ⟨?_, fun region ↦ keeps_iff_grows fresh region final⟩
  have hkeeps : ∀ (trace : List (Region × Option γ)) (now : Growth γ) (region : Region)
      (output : Option γ) (next : Growth γ), start.contexts <+: now.contexts → Grows now region →
      Growth.step fresh region now = .ok (output, next) → start.contexts <+: next.contexts := by
    intro _ now region output next hnow hgrows hstep
    obtain ⟨output', next', hstep', hprefix⟩ := (keeps_iff_grows fresh region now).mpr hgrows
    obtain ⟨_, rfl⟩ := Prod.mk.inj (Except.ok.inj (hstep.symm.trans hstep'))
    exact hnow.trans hprefix
  have hstart : start.contexts <+: start.contexts := List.prefix_rfl
  let holds : List (Region × Option γ) → Growth γ → Prop :=
    fun _ now ↦ start.contexts <+: now.contexts
  exact Run.history_invariant (show holds [] start from hstart) hkeeps hrun

/-- A thread that meets the condition. -/
theorem contexts_kept_twenty :
    ∃ trace final, Run (Growth.step id) Grows Growth.init trace final ∧
      final.contexts[20]? = some 0 ∧ Growth.init.contexts <+: final.contexts := by
  have hcheck := Run.nil.snoc (show Grows (Growth.init : Growth ℕ) (.check 0 20) from trivial)
    (show Growth.step id _ _ = .ok (_, _) from rfl)
  have hgrows :
      Grows (⟨[], 0, Function.update (fun _ ↦ none) 0 (some 20)⟩ : Growth ℕ) (.grow 0) := by
    intro fd hfd
    cases hfd
    decide
  have hrun := hcheck.snoc hgrows rfl
  exact ⟨_, _, hrun, rfl, (contexts_kept id hrun).1⟩

/-- Threads `0` and `1` have found the table empty, for descriptors `20` and `10`, and thread `0`
has grown it. -/
def twentyMade : Growth ℕ :=
  ⟨List.replicate 30 0, 1,
    Function.update (Function.update (Function.update (fun _ ↦ none) 0 (some 20)) 1 (some 10))
      0 none⟩

/-- Thread `1` has resized it. -/
def tenMade : Growth ℕ :=
  ⟨List.replicate 15 0, 2, Function.update twentyMade.growing 1 none⟩

/-- Threads `0` and `1` both find the table empty. Thread `0` makes the context of descriptor `20`;
thread `1` then resizes the table for descriptor `10`, and that context is gone. A first `addEvent`
for descriptor `0` indexes an empty table. -/
theorem slower_thread_drops_context :
    (∃ before made after dropped,
      Run (Growth.step id) (fun _ _ ↦ True) Growth.init before made ∧
      Run (Growth.step id) (fun _ _ ↦ True) made after dropped ∧
      made.contexts[20]? = some 0 ∧ dropped.contexts[20]? = none ∧
      dropped.contexts.length < made.contexts.length) ∧
    ∃ trace checked, Run (Growth.step id) (fun _ _ ↦ True) Growth.init trace checked ∧
      Growth.step id (.grow 0) checked = .error .outOfRange := by
  have hstart : Run (Growth.step id) (fun _ _ ↦ True) (Growth.init : Growth ℕ) [] Growth.init :=
    Run.nil
  constructor
  · have hfirst := hstart.snoc trivial (show Growth.step id (.check 0 20) _ = .ok (_, _) from rfl)
    have hsecond := hfirst.snoc trivial (show Growth.step id (.check 1 10) _ = .ok (_, _) from rfl)
    have hmade := hsecond.snoc trivial
      (show Growth.step id (.grow 0) _ = .ok (_, twentyMade) from rfl)
    have hdropped : Run (Growth.step id) (fun _ _ ↦ True) twentyMade [(.grow 1, some 0)] tenMade :=
      Run.nil.snoc trivial rfl
    exact ⟨_, twentyMade, _, tenMade, hmade, hdropped, rfl, rfl, by decide⟩
  · have hchecked := hstart.snoc trivial (show Growth.step id (.check 0 0) _ = .ok (_, _) from rfl)
    exact ⟨_, _, hchecked, rfl⟩

end Cczoe.Scheduler
