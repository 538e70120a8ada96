import Mathlib.Data.List.Infix
import Cczoe.Timer.Expiry

/-!
# Timers that are refreshed

`refresh` clears the callback as `cancel` does before it puts the timer back, so it does all that it
is for (`Rescheduled`) except that the timer has no callback any more
(`Consistent.refresh_effect`). It will call nothing and `cancel` returns false for it. `added` is
the callback with which the timer at an address was last added. In a run that refreshes no armed
timer every timer of the set has it (`added_of_spared`), and a step that refreshes one leaves it in
the set without (`refresh_lost`).
-/

set_option autoImplicit false
set_option relaxedAutoImplicit false

namespace Cczoe.Timers

open Cczoe.Foundations

variable {γ κ : Type}

/-- The operation adds a timer at an address. -/
def Action.adds (action : Action γ κ) (timer : Address) : Bool :=
  match action with
  | .addTimer address _ _ _ _ | .addConditionTimer address _ _ _ _ _ => address == timer
  | .cancel _ | .reset _ _ _ _ | .refresh _ _ | .getExpiredCb _ _ | .release _ => false

/-- The callback with which the timer at an address was last added. -/
def added (trace : List (Action γ κ × Outcome γ κ)) (timer : Address) : Option (Callback γ κ) :=
  trace.foldl (fun cb entry ↦ if entry.1.adds timer then entry.1.stored else cb) none

theorem added_snoc (trace : List (Action γ κ × Outcome γ κ)) (entry : Action γ κ × Outcome γ κ)
    (timer : Address) :
    added (trace ++ [entry]) timer =
      if entry.1.adds timer then entry.1.stored else added trace timer := by
  rw [added, List.foldl_append]
  rfl

namespace TimerManager

variable {s : TimerManager γ κ} {timer : Address} {now : UInt64}

/-! ### One refresh -/

/-- The timer is in the set once with a new deadline, its interval and whether it recurs are as
before, and so are all other timers. -/
structure Rescheduled (s : TimerManager γ κ) (timer : Address) (now : UInt64)
    (after : TimerManager γ κ) : Prop where
  once : after.timers.count timer = 1
  next : (after.memory timer).next = now + (s.memory timer).ms
  ms : (after.memory timer).ms = (s.memory timer).ms
  recurring : (after.memory timer).recurring = (s.memory timer).recurring
  others : ∀ other, other ≠ timer →
    (other ∈ after.timers ↔ other ∈ s.timers) ∧ after.memory other = s.memory other

/-- `refresh` reschedules a timer, which keeps its callback and can still be cancelled. -/
structure RefreshKeeps (s : TimerManager γ κ) (timer : Address) (now : UInt64) : Prop where
  returned : (s.refresh timer now).1 = true
  rescheduled : Rescheduled s timer now (s.refresh timer now).2
  callback : ((s.refresh timer now).2.memory timer).cb = (s.memory timer).cb
  cancellable : ∃ next, (s.refresh timer now).2.cancel timer = .ok (true, next)

/-- Assumes: the timer is in the set and has a callback. `refresh` reschedules it and drops the
callback. -/
theorem Consistent.refresh_effect (hs : s.Consistent) (hmem : timer ∈ s.timers)
    (hcb : (s.memory timer).cb.isSome) (now : UInt64) :
    (s.refresh timer now).1 = true ∧ Rescheduled s timer now (s.refresh timer now).2 ∧
      ((s.refresh timer now).2.memory timer).cb = none := by
  obtain ⟨cleared, hcleared⟩ :
      ∃ cleared, cleared = s.store timer { s.memory timer with cb := none } := ⟨_, rfl⟩
  obtain ⟨value, hvalue⟩ : ∃ value : Timer γ κ, value =
    { s.memory timer with cb := none, next := now + (s.memory timer).ms } := ⟨_, rfl⟩
  have hconsistent : cleared.Consistent := hcleared ▸ hs.clear timer
  have htimers : cleared.timers = s.timers := by rw [hcleared, store_timers]
  have hin : timer ∈ cleared.timers := htimers ▸ hmem
  have hafter : s.refresh timer now =
      (true, ((cleared.erase (cleared.find timer)).store timer value).insert timer) := by
    have hmemory : cleared.memory timer = { s.memory timer with cb := none } := by
      rw [hcleared, store_memory_self]
    have hfound : cleared.find timer ≠ cleared.timers.length :=
      Nat.ne_of_lt (hconsistent.find_of_mem hin).1
    rw [TimerManager.refresh, if_pos hcb]
    simp only [← hcleared, if_pos hfound, hmemory, hvalue]
  obtain ⟨honce, hself, hothers⟩ := hconsistent.replaced hin value
  rw [hafter]
  refine ⟨rfl, ⟨honce, ?_, ?_, ?_, ?_⟩, ?_⟩
  · rw [hself, hvalue]
  · rw [hself, hvalue]
  · rw [hself, hvalue]
  · intro other hne
    refine ⟨(hothers other hne).1.trans (by rw [htimers]), (hothers other hne).2.trans ?_⟩
    rw [hcleared, store_memory_of_ne _ _ hne]
  · rw [hself, hvalue]

/-- A timer without a callback is not cancelled. -/
theorem cancel_of_none (hnone : (s.memory timer).cb = none) :
    s.cancel timer = .ok (false, s) := by
  have hcb : ¬ (s.memory timer).cb.isSome = true := by
    rw [hnone]
    exact Bool.false_ne_true
  rw [cancel, if_neg hcb]

/-- Assumes: the timer is in the set and has a callback. A `refresh` does not keep it. -/
theorem Consistent.not_refreshKeeps (hs : s.Consistent) (hmem : timer ∈ s.timers)
    (hcb : (s.memory timer).cb.isSome) (now : UInt64) : ¬ RefreshKeeps s timer now := by
  intro hkeeps
  have hsome : ((s.refresh timer now).2.memory timer).cb.isSome := hkeeps.callback ▸ hcb
  rw [(hs.refresh_effect hmem hcb now).2.2] at hsome
  exact absurd hsome Bool.false_ne_true

/-! ### Runs -/

/-- Every timer of the set that was added with a callback has a callback. -/
def CallbacksKept (trace : List (Action γ κ × Outcome γ κ)) (s : TimerManager γ κ) : Prop :=
  ∀ timer ∈ s.timers, (added trace timer).isSome → (s.memory timer).cb.isSome

/-- The calls that can be made, except to refresh a timer of the set that has a callback. -/
def Spared (s : TimerManager γ κ) (action : Action γ κ) : Prop :=
  s.Guard action ∧ ∀ timer now, action = .refresh timer now →
    ¬ (timer ∈ s.timers ∧ (s.memory timer).cb.isSome)

/-- A step that adds a timer gives it its callback. -/
theorem step_cb_of_adds {action : Action γ κ} {outcome : Outcome γ κ} {next : TimerManager γ κ}
    (hadds : action.adds timer = true) (hstep : step action s = .ok (outcome, next)) :
    (next.memory timer).cb = action.stored := by
  cases action with
  | addTimer address ms cb recurring now =>
    cases hstep
    cases beq_iff_eq.mp hadds
    exact congrArg Timer.cb (addTimer_memory_self ..)
  | addConditionTimer address ms cb cond recurring now =>
    cases hstep
    cases beq_iff_eq.mp hadds
    exact congrArg Timer.cb (addTimer_memory_self ..)
  | cancel timer => cases hadds
  | reset timer ms fromNow now => cases hadds
  | refresh timer now => cases hadds
  | getExpiredCb probe now => cases hadds
  | release timer => cases hadds

/-- An operation that does not add the timer it works on stores no callback. -/
theorem stored_eq_none {action : Action γ κ} (htarget : action.target = some timer)
    (hadds : action.adds timer = false) : action.stored = none := by
  cases action with
  | addTimer address ms cb recurring now =>
    cases htarget
    exact absurd rfl (beq_eq_false_iff_ne.mp hadds)
  | addConditionTimer address ms cb cond recurring now =>
    cases htarget
    exact absurd rfl (beq_eq_false_iff_ne.mp hadds)
  | _ => rfl

/-- A step that does not add a timer keeps its callback or drops it. -/
theorem step_cb_of_not_adds {action : Action γ κ} {outcome : Outcome γ κ}
    {next : TimerManager γ κ} (hguard : s.Guard action) (hadds : action.adds timer = false)
    (hstep : step action s = .ok (outcome, next)) :
    (next.memory timer).cb = none ∨ (next.memory timer).cb = (s.memory timer).cb := by
  rcases step_seen timer hstep with ⟨probe, now, rfl⟩ | htarget | ⟨-, hmemory⟩
  · cases hstep
    exact getExpiredCb_cb s timer probe now
  · rcases step_cb hguard htarget hstep with hstored | ⟨-, hkept⟩
    · exact Or.inl (hstored.trans (stored_eq_none htarget hadds))
    · exact hkept
  · exact Or.inr (congrArg Timer.cb hmemory)

/-- Assumes: a call that does not add the timer it works on, nor refreshes an armed one. If the
timer is in the set afterwards, it was there before with its callback. -/
theorem Consistent.step_target {action : Action γ κ} {outcome : Outcome γ κ}
    {next : TimerManager γ κ} (hs : s.Consistent) (hspared : s.Spared action)
    (htarget : action.target = some timer) (hadds : action.adds timer = false)
    (hstep : TimerManager.step action s = .ok (outcome, next)) (hmem : timer ∈ next.timers) :
    timer ∈ s.timers ∧ (next.memory timer).cb = (s.memory timer).cb := by
  obtain ⟨hguard, hnorefresh⟩ := hspared
  cases action with
  | addTimer address ms cb recurring now =>
    cases htarget
    exact absurd rfl (beq_eq_false_iff_ne.mp hadds)
  | addConditionTimer address ms cb cond recurring now =>
    cases htarget
    exact absurd rfl (beq_eq_false_iff_ne.mp hadds)
  | cancel other =>
    cases htarget
    obtain ⟨done, hcancel⟩ := step_cancel hstep
    by_cases hcb : (s.memory timer).cb.isSome
    · exact absurd hmem (hs.cancel_effect hguard (fun _ ↦ hcb) hcancel).2.1
    · have hnone : (s.memory timer).cb = none := Option.not_isSome_iff_eq_none.mp hcb
      cases (cancel_of_none hnone).symm.trans hcancel
      exact ⟨hmem, rfl⟩
  | reset other ms fromNow now =>
    cases htarget
    cases hstep
    by_cases hcb : (s.memory timer).cb.isSome
    · refine ⟨hs.armed timer hguard hcb, ?_⟩
      rcases reset_cases s timer ms fromNow now with hsame | ⟨position, next, hput⟩
      · rw [hsame]
      · rw [hput, insert_memory, store_memory_self]
    · rw [TimerManager.reset, if_neg hcb] at hmem ⊢
      exact ⟨hmem, rfl⟩
  | refresh other now =>
    cases htarget
    cases hstep
    have hcb : ¬ (s.memory timer).cb.isSome := fun hcb ↦
      hnorefresh timer now rfl ⟨hs.armed timer hguard hcb, hcb⟩
    rw [TimerManager.refresh, if_neg hcb] at hmem ⊢
    exact ⟨hmem, rfl⟩
  | getExpiredCb probe now => cases htarget
  | release other =>
    cases htarget
    cases hstep
    exact ⟨hmem, rfl⟩

/-- Assumes: a call that does not add the timer, nor refreshes an armed one. If the timer is in the
set afterwards, it was there before with its callback. -/
theorem Consistent.step_kept {action : Action γ κ} {outcome : Outcome γ κ}
    {next : TimerManager γ κ} (hs : s.Consistent) (hspared : s.Spared action)
    (hadds : action.adds timer = false)
    (hstep : TimerManager.step action s = .ok (outcome, next)) (hmem : timer ∈ next.timers) :
    timer ∈ s.timers ∧ (next.memory timer).cb = (s.memory timer).cb := by
  rcases step_seen timer hstep with ⟨probe, now, rfl⟩ | htarget | ⟨htimers, hmemory⟩
  · cases hstep
    have hfresh : probe ∉ s.live := hspared.1
    have hprobe : probe ∉ s.timers := fun hin ↦ hfresh (hs.tracked probe hin)
    rw [getExpiredCb_eq hs.ordered hprobe] at hmem ⊢
    exact (expireAll_expired hs.ordered).cb_of_mem hmem
  · exact hs.step_target hspared htarget hadds hstep hmem
  · exact ⟨htimers hmem, congrArg Timer.cb hmemory⟩

/-- A callback that a timer has is the one it was added with. -/
theorem cb_of_run {trace : List (Action γ κ × Outcome γ κ)} {final : TimerManager γ κ}
    (hrun : Run step Guard init trace final) (timer : Address) :
    (final.memory timer).cb = none ∨ (final.memory timer).cb = added trace timer := by
  let reached : List (Action γ κ × Outcome γ κ) → TimerManager γ κ → Prop := fun trace now ↦
    (now.memory timer).cb = none ∨ (now.memory timer).cb = added trace timer
  have hstart : reached [] init := Or.inl rfl
  refine hrun.history_invariant hstart ?_
  intro trace now action outcome next hnow hguard hstep
  show _ ∨ _ = added (trace ++ [(action, outcome)]) timer
  rw [added_snoc]
  cases hadds : action.adds timer with
  | true => exact Or.inr (step_cb_of_adds hadds hstep)
  | false =>
    rcases step_cb_of_not_adds hguard hadds hstep with hnone | hkept
    · exact Or.inl hnone
    · rw [hkept]
      exact hnow

/-- Assumes: a run that refreshes no armed timer. Every timer of the set has the callback it was
added with. -/
theorem added_of_spared {trace : List (Action γ κ × Outcome γ κ)} {final : TimerManager γ κ}
    (hrun : Run step Spared init trace final) :
    ∀ timer ∈ final.timers, (final.memory timer).cb = added trace timer := by
  let reached : List (Action γ κ × Outcome γ κ) → TimerManager γ κ → Prop := fun trace now ↦
    now.Consistent ∧ ∀ timer ∈ now.timers, (now.memory timer).cb = added trace timer
  have hstart : reached [] init :=
    ⟨consistent_init, fun _ hmem ↦ absurd hmem List.not_mem_nil⟩
  refine (hrun.history_invariant hstart ?_).2
  rintro trace now action outcome next ⟨hnow, hcbs⟩ hspared hstep
  obtain ⟨_, _, hreturned, hnext⟩ := hnow.step hspared.1
  cases hstep.symm.trans hreturned
  refine ⟨hnext, ?_⟩
  intro timer hmem
  rw [added_snoc]
  cases hadds : action.adds timer with
  | true => exact step_cb_of_adds hadds hstep
  | false =>
    obtain ⟨hbefore, hkept⟩ := hnow.step_kept hspared hadds hstep hmem
    rw [hkept]
    exact hcbs timer hbefore

/-- Assumes: a run that goes on to refresh a timer of the set that has a callback. The timer is in
the set without it. -/
theorem refresh_lost {trace : List (Action γ κ × Outcome γ κ)} {reached next : TimerManager γ κ}
    {outcome : Outcome γ κ} (hrun : Run step Guard init trace reached)
    (hmem : timer ∈ reached.timers) (hcb : (reached.memory timer).cb.isSome)
    (hstep : step (.refresh timer now) reached = .ok (outcome, next)) :
    ¬ CallbacksKept (trace ++ [(.refresh timer now, outcome)]) next := by
  intro hkept
  cases hstep
  obtain ⟨-, hrescheduled, hnone⟩ := (consistent_of_run hrun).refresh_effect hmem hcb now
  have hin : timer ∈ (reached.refresh timer now).2.timers :=
    List.one_le_count_iff.mp (Nat.le_of_eq hrescheduled.once.symm)
  have hadded : (added trace timer).isSome := by
    rcases cb_of_run hrun timer with habsent | hsame
    · rw [habsent] at hcb
      exact absurd hcb Bool.false_ne_true
    · exact hsame ▸ hcb
  have hsome := hkept timer hin (by rwa [added_snoc])
  rw [hnone] at hsome
  exact absurd hsome Bool.false_ne_true

/-- Assumes: a run of the operations, with any clock readings. At every point of the run every timer
of the set that was added with a callback has one, if and only if no step of it refreshes a timer of
the set that has a callback. Such a timer keeps its callback through no `refresh`. -/
theorem callbacksKept_iff_spared {trace : List (Action γ κ × Outcome γ κ)}
    {final : TimerManager γ κ} (hrun : Run step Guard init trace final) :
    ((∀ before reached, before <+: trace → Run step Guard init before reached →
        CallbacksKept before reached) ↔ Run step Spared init trace final) ∧
      ∀ timer ∈ final.timers, (final.memory timer).cb.isSome →
        ∀ now, ¬ RefreshKeeps final timer now := by
  refine ⟨⟨?_, ?_⟩, ?_⟩
  · intro hkept
    refine hrun.change_guard ?_
    rintro before ⟨action, outcome⟩ reached next hpart hbefore hguard hstep
    refine ⟨hguard, ?_⟩
    rintro timer now rfl ⟨hmem, hcb⟩
    exact refresh_lost hbefore hmem hcb hstep (hkept _ next hpart (hbefore.snoc hguard hstep))
  · intro hspared before reached hpart hreached timer hmem hadded
    obtain ⟨same, hbefore⟩ := hspared.exists_before hpart
    cases hreached.deterministic hbefore
    rw [added_of_spared hbefore timer hmem]
    exact hadded
  · intro timer hmem hcb now
    exact (consistent_of_run hrun).not_refreshKeeps hmem hcb now

/-- A timer is added, and another is added and cancelled; none is refreshed. -/
theorem callbacksKept_iff_spared_two_timers :
    ∃ (trace : List (Action Unit Unit × Outcome Unit Unit)) (final : TimerManager Unit Unit),
      Run step Guard init trace final ∧ final.timers = [1] ∧ CallbacksKept trace final ∧
        ¬ RefreshKeeps final 1 110 := by
  have hnever : ∀ (action : Action Unit Unit) (s : TimerManager Unit Unit), s.Guard action →
      (∀ timer now, action ≠ .refresh timer now) → s.Spared action := by
    intro action s hguard hother
    exact ⟨hguard, fun timer now hsame ↦ absurd hsame (hother timer now)⟩
  have hempty : Run step Spared (init : TimerManager Unit Unit) [] init := Run.nil
  have hfirst := hempty.snoc (hnever (.addTimer 1 50 (some ()) false 100) _
    List.not_mem_nil fun _ _ ↦ by simp) rfl
  have hsecond := hfirst.snoc (hnever (.addTimer 2 10 (some ()) true 100) _
    (show (2 : Address) ∉ [1] by decide) fun _ _ ↦ by simp) rfl
  have hthird := hsecond.snoc (hnever (.cancel 2) _
    (show (2 : Address) ∈ [2, 1] by decide) fun _ _ ↦ by simp) rfl
  have hrun := hthird.change_guard fun _ _ _ _ _ _ hguard _ ↦ hguard.1
  obtain ⟨hkept, hlost⟩ := callbacksKept_iff_spared hrun
  exact ⟨_, _, hrun, by decide, hkept.mpr hthird _ _ (List.prefix_refl _) hrun,
    hlost 1 (by decide) (by decide) 110⟩

/-- A timer is added with a callback and refreshed: it stays in the set without the callback, and
`cancel` returns false. -/
theorem not_callbacksKept_refreshed :
    ∃ (trace : List (Action Unit Unit × Outcome Unit Unit))
      (reached final : TimerManager Unit Unit),
      Run step Guard init trace reached ∧ 1 ∈ reached.timers ∧ (reached.memory 1).cb.isSome ∧
        ¬ RefreshKeeps reached 1 110 ∧
        Run step Guard init (trace ++ [(.refresh 1 110, .result true false)]) final ∧
        ¬ CallbacksKept (trace ++ [(.refresh 1 110, .result true false)]) final := by
  have hempty : Run step Guard (init : TimerManager Unit Unit) [] init := Run.nil
  have hadded := hempty.snoc (show Guard _ (.addTimer 1 50 (some ()) false 100) from
    List.not_mem_nil) rfl
  have hrefreshed := hadded.snoc (show Guard _ (.refresh 1 110) from
    (show (1 : Address) ∈ [1] by decide)) rfl
  refine ⟨_, _, _, hadded, by decide, by decide, ?_, hrefreshed, ?_⟩
  · intro hkeeps
    obtain ⟨next, hcancel⟩ := hkeeps.cancellable
    cases hcancel
  · intro hkept
    exact absurd (hkept 1 (by decide) (by decide)) (by decide)

end TimerManager

end Cczoe.Timers
