import Cczoe.Foundations.Ledger
import Cczoe.Timer.Agenda
import Cczoe.Timer.FiringTimes

/-!
# From the addition of a timer to its end

`Scheduled` reads off the trace of a run whether a timer was added and neither cancelled nor, unless
it recurs, fired since then. A step that does not add a timer leaves it in the set unless it is such
an end (`Consistent.mem_step_iff`), so `getExpiredCb_scheduled` can say of every run that these are
the timers that fire when they are due: none is lost and none fires again.
-/

set_option autoImplicit false
set_option relaxedAutoImplicit false

namespace Cczoe.Timers.TimerManager

open Cczoe.Foundations

open Agenda

variable {γ κ : Type} {s next : TimerManager γ κ} {timer : Address}

/-- A step ends what a timer is scheduled for: it cancels the timer, or fires it when it does not
recur. -/
def Ends (s : TimerManager γ κ) (timer : Address) (entry : Action γ κ × Outcome γ κ) : Prop :=
  match entry.1 with
  | .cancel other => other = timer ∧ entry.2 = .result true false
  | .getExpiredCb probe now => s.Fires probe now timer ∧ (s.memory timer).recurring = false
  | .addTimer _ _ _ _ _ | .addConditionTimer _ _ _ _ _ _ | .reset _ _ _ _ | .refresh _ _
  | .release _ => False

/-- A run adds the timer, and no step after that ends what it is scheduled for. -/
def Scheduled (trace : List (Action γ κ × Outcome γ κ)) (timer : Address) : Prop :=
  ∃ before entry rest, trace = before ++ entry :: rest ∧ entry.1.adds timer = true ∧
    ∀ middle last tail reached, rest = middle ++ last :: tail →
      Run step Guard init (before ++ entry :: middle) reached → ¬ reached.Ends timer last

/-- A step that adds a timer puts it into the set. -/
theorem Consistent.mem_of_adds (hs : s.Consistent) {action : Action γ κ} {outcome : Outcome γ κ}
    (hguard : s.Guard action) (hadds : action.adds timer = true)
    (hstep : TimerManager.step action s = .ok (outcome, next)) :
    timer ∈ next.timers := by
  rw [← agenda_isSome_iff, (hs.step_agenda hguard hstep).1]
  cases action with
  | addTimer address ms cb recurring now =>
    cases beq_iff_eq.mp hadds
    rw [after, Function.update_self, Option.isSome_some]
  | addConditionTimer address ms cb cond recurring now =>
    cases beq_iff_eq.mp hadds
    rw [after, Function.update_self, Option.isSome_some]
  | _ => cases hadds

/-- A `cancel` leaves a timer in the set unless it cancels it. -/
theorem Consistent.mem_cancel_iff (hs : s.Consistent) {other : Address} (hlive : other ∈ s.live)
    {done : Bool} (hcancel : s.cancel other = .ok (done, next)) :
    timer ∈ next.timers ↔ timer ∈ s.timers ∧ ¬ (other = timer ∧ done = true) := by
  obtain ⟨hagenda, hdone⟩ := hs.cancel_agenda hlive hcancel
  rw [← agenda_isSome_iff, ← agenda_isSome_iff, hagenda, hdone]
  by_cases harmed : s.agenda.Armed other
  · obtain ⟨value, hvalue, hcb⟩ := id harmed
    rw [amend_of_armed hvalue hcb]
    by_cases hsame : timer = other
    · rw [hsame, Function.update_self]
      exact iff_of_false Bool.false_ne_true fun h ↦ h.2 ⟨rfl, harmed⟩
    · rw [Function.update_of_ne hsame]
      exact (and_iff_left fun h ↦ hsame h.1.symm).symm
  · rw [amend_of_not_armed harmed]
    exact (and_iff_left fun h ↦ harmed h.2).symm

/-- `getExpiredCb` leaves a timer in the set unless it fires and does not recur. -/
theorem Consistent.mem_getExpiredCb_iff (hs : s.Consistent) {probe : Address}
    (hfresh : probe ∉ s.live) (now : UInt64) :
    timer ∈ (s.getExpiredCb probe now).2.timers ↔
      timer ∈ s.timers ∧ ¬ (s.Fires probe now timer ∧ (s.memory timer).recurring = false) := by
  have hguard : s.Guard (.getExpiredCb probe now) := hfresh
  have hagenda : (s.getExpiredCb probe now).2.agenda = s.agenda.after (.getExpiredCb probe now) :=
    (hs.step_agenda hguard rfl).1
  rw [← agenda_isSome_iff, hagenda, hs.fires_iff hfresh, after]
  dsimp only
  by_cases hmem : timer ∈ s.timers
  · rw [agenda_of_mem hmem, Option.bind_some, rescheduled]
    by_cases hdue : (s.memory timer).next ≤ now
    · rw [if_pos hdue]
      cases hrecurring : (s.memory timer).recurring with
      | true => exact iff_of_true rfl ⟨hmem, fun h ↦ Bool.false_ne_true h.2.symm⟩
      | false => exact iff_of_false Bool.false_ne_true fun h ↦ h.2 ⟨⟨hmem, hdue⟩, rfl⟩
    · rw [if_neg hdue]
      exact iff_of_true rfl ⟨hmem, fun h ↦ hdue h.1.2⟩
  · rw [agenda_of_notMem hmem]
    exact iff_of_false Bool.false_ne_true fun h ↦ hmem h.1

/-- A step that does not add a timer leaves it in the set if it was there and is not ended. -/
theorem Consistent.mem_step_iff (hs : s.Consistent) {action : Action γ κ} {outcome : Outcome γ κ}
    (hguard : s.Guard action) (hadds : action.adds timer = false)
    (hstep : TimerManager.step action s = .ok (outcome, next)) :
    timer ∈ next.timers ↔ timer ∈ s.timers ∧ ¬ s.Ends timer (action, outcome) := by
  have hagenda := (hs.step_agenda hguard hstep).1
  cases action with
  | addTimer address ms cb recurring now =>
    have hne : timer ≠ address := (beq_eq_false_iff_ne.mp hadds).symm
    rw [← agenda_isSome_iff, ← agenda_isSome_iff, hagenda, after, Function.update_of_ne hne]
    exact (and_iff_left not_false).symm
  | addConditionTimer address ms cb cond recurring now =>
    have hne : timer ≠ address := (beq_eq_false_iff_ne.mp hadds).symm
    rw [← agenda_isSome_iff, ← agenda_isSome_iff, hagenda, after, Function.update_of_ne hne]
    exact (and_iff_left not_false).symm
  | cancel other =>
    rw [TimerManager.step] at hstep
    cases hcancel : s.cancel other with
    | error fault =>
      rw [hcancel] at hstep
      cases hstep
    | ok result =>
      rw [hcancel] at hstep
      cases hstep
      refine (hs.mem_cancel_iff hguard hcancel).trans ?_
      simp only [Ends, Outcome.result.injEq, and_true]
  | reset other ms fromNow now =>
    rw [← agenda_isSome_iff, ← agenda_isSome_iff, hagenda, after, amend_isSome fun _ ↦ rfl]
    exact (and_iff_left not_false).symm
  | refresh other now =>
    rw [← agenda_isSome_iff, ← agenda_isSome_iff, hagenda, after, amend_isSome fun _ ↦ rfl]
    exact (and_iff_left not_false).symm
  | getExpiredCb probe now =>
    cases hstep
    exact hs.mem_getExpiredCb_iff hguard now
  | release other =>
    cases hstep
    exact (and_iff_left not_false).symm

/-- The set holds the timers that are scheduled. -/
theorem mem_iff_scheduled {trace : List (Action γ κ × Outcome γ κ)} {final : TimerManager γ κ}
    (hrun : Run step Guard init trace final) :
    timer ∈ final.timers ↔ Scheduled trace timer := by
  induction hrun with
  | nil =>
    refine iff_of_false List.not_mem_nil ?_
    rintro ⟨before, entry, rest, hsplit, -⟩
    simp at hsplit
  | @snoc trace now next action outcome hbefore hguard hstep ih =>
    have hnow := consistent_of_run hbefore
    cases hadds : action.adds timer with
    | true =>
      refine iff_of_true (hnow.mem_of_adds hguard hadds hstep) ?_
      refine ⟨trace, (action, outcome), [], rfl, hadds, ?_⟩
      intro middle last tail reached hrest
      simp at hrest
    | false =>
      rw [hnow.mem_step_iff hguard hadds hstep, ih]
      constructor
      · rintro ⟨⟨before, entry, rest, rfl, hentry, hnone⟩, hnot⟩
        refine ⟨before, entry, rest ++ [(action, outcome)], by simp, hentry, ?_⟩
        intro middle last tail reached hrest hreached
        rcases Ledger.append_singleton_eq hrest with ⟨-, rfl, rfl⟩ | ⟨others, -, hold⟩
        · cases hbefore.deterministic hreached
          exact hnot
        · exact hnone middle last others reached hold hreached
      · rintro ⟨before, entry, rest, hsplit, hentry, hnone⟩
        rcases Ledger.append_singleton_eq hsplit with ⟨-, -, rfl⟩ | ⟨others, rfl, rfl⟩
        · rw [hadds] at hentry
          exact absurd hentry Bool.false_ne_true
        · refine ⟨⟨before, entry, others, rfl, hentry, ?_⟩, ?_⟩
          · intro middle last tail reached hrest hreached
            exact hnone middle last (tail ++ [(action, outcome)]) reached (by simp [hrest]) hreached
          · exact hnone others _ [] now rfl hbefore

/-- Assumes: a run of the operations, with any clock readings and any addresses that are free. The
set holds exactly the timers that the run has added, and neither cancelled nor, unless they recur,
fired since then. `getExpiredCb` returns the callback of each of these that is due, once, and no
other. -/
theorem getExpiredCb_scheduled {trace : List (Action γ κ × Outcome γ κ)}
    {final : TimerManager γ κ} (hrun : Run step Guard init trace final) :
    (∀ timer, timer ∈ final.timers ↔ Scheduled trace timer) ∧
      ∀ probe now, probe ∉ final.live → ∃ fired : List Address, fired.Nodup ∧
        (∀ timer, timer ∈ fired ↔
          Scheduled trace timer ∧ (final.memory timer).next ≤ now) ∧
        (final.getExpiredCb probe now).1 = fired.map fun timer ↦ (final.memory timer).cb := by
  have hs := consistent_of_run hrun
  have hmem : ∀ timer, timer ∈ final.timers ↔ Scheduled trace timer := fun _ ↦
    mem_iff_scheduled hrun
  refine ⟨hmem, fun probe now hfresh ↦ ⟨final.timers.take (final.expiredEnd probe now), ?_, ?_,
    hs.getExpiredCb_callbacks probe now⟩⟩
  · exact hs.ordered.nodup.sublist (List.take_sublist _ _)
  · intro timer
    exact (hs.fires_iff hfresh).trans (and_congr_left' (hmem timer))

/-- Two timers are added at 100, one of which recurs every 20, and both have fired at 160: only the
one that recurs is still scheduled. -/
theorem getExpiredCb_scheduled_two_fired :
    ∃ (trace : List (Action ℕ Unit × Outcome ℕ Unit)) (final : TimerManager ℕ Unit),
      Run step Guard init trace final ∧ Scheduled trace 2 ∧ ¬ Scheduled trace 1 ∧
        ∃ fired : List Address, fired.Nodup ∧ 2 ∈ fired ∧
          (final.getExpiredCb 3 200).1 = fired.map fun timer ↦ (final.memory timer).cb := by
  have hempty : Run step Guard (init : TimerManager ℕ Unit) [] init := Run.nil
  have hfirst := hempty.snoc (show Guard _ (.addTimer 1 50 (some 10) false 100) from
    List.not_mem_nil) rfl
  have hsecond := hfirst.snoc (show Guard _ (.addTimer 2 20 (some 20) true 100) from
    (show (2 : Address) ∉ [1] by decide)) rfl
  have hfired := hsecond.snoc (show Guard _ (.getExpiredCb 3 160) from
    (show (3 : Address) ∉ [2, 1] by decide)) rfl
  obtain ⟨hmem, hcall⟩ := getExpiredCb_scheduled hfired
  have hrecurs := (hmem 2).mp (by decide)
  obtain ⟨fired, hnodup, hdue, hreturned⟩ := hcall 3 200 (by decide)
  exact ⟨_, _, hfired, hrecurs, fun h ↦ absurd ((hmem 1).mpr h) (by decide), fired, hnodup,
    (hdue 2).mpr ⟨hrecurs, by decide⟩, hreturned⟩

end Cczoe.Timers.TimerManager
