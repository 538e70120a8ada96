import Cczoe.Timer.TimerEffects

/-!
# Timers that are reset

`reset(ms, from_now)` gives a timer a new interval and counts it from now, or from the time from
which the old interval was counted. `Resets` says what that means for the timer and for the set.
Without `from_now` the body of `reset` leaves `m_next` as it is, so the timer stays due at the end
of the old interval: `resets_iff` says that this is right only when the interval does not change.
-/

set_option autoImplicit false
set_option relaxedAutoImplicit false

namespace Cczoe.Timers.TimerManager

open Cczoe.Foundations

variable {γ κ : Type}

/-- The time from which the interval of a timer is counted when it is reset: now, or that from which
the old interval was counted. -/
def startOf (s : TimerManager γ κ) (timer : Address) (fromNow : Bool) (now : UInt64) : UInt64 :=
  if fromNow then now else (s.memory timer).next - (s.memory timer).ms

/-- `reset` returns true and puts the timer back with its new interval and deadline; nothing else
about it or about the others changes, and `onTimerInsertedAtFront` is called exactly when no timer
is before it. -/
structure Resets (s : TimerManager γ κ) (timer : Address) (ms : UInt64) (fromNow : Bool)
    (now : UInt64) : Prop where
  returned : (s.reset timer ms fromNow now).1 = true
  once : (s.reset timer ms fromNow now).2.2.timers.count timer = 1
  interval : ((s.reset timer ms fromNow now).2.2.memory timer).ms = ms
  next : ((s.reset timer ms fromNow now).2.2.memory timer).next = s.startOf timer fromNow now + ms
  callback : ((s.reset timer ms fromNow now).2.2.memory timer).cb = (s.memory timer).cb
  recurring : ((s.reset timer ms fromNow now).2.2.memory timer).recurring =
    (s.memory timer).recurring
  others : ∀ other, other ≠ timer →
    (other ∈ (s.reset timer ms fromNow now).2.2.timers ↔ other ∈ s.timers) ∧
      (s.reset timer ms fromNow now).2.2.memory other = s.memory other
  atFront : (s.reset timer ms fromNow now).2.1 = true ↔
    ∀ other ∈ (s.reset timer ms fromNow now).2.2.timers,
      deadline (s.reset timer ms fromNow now).2.2.memory timer ≤
        deadline (s.reset timer ms fromNow now).2.2.memory other

variable {s : TimerManager γ κ} {timer : Address}

/-- The timer that `reset` puts back. -/
def resetTo (s : TimerManager γ κ) (timer : Address) (ms : UInt64) (fromNow : Bool)
    (now : UInt64) : Timer γ κ :=
  { s.memory timer with
    ms := ms
    next := if fromNow then now + ms else (s.memory timer).next }

/-- Assumes: the timer is in the set and has a callback. `reset` takes it out, changes it and puts
it back. -/
theorem Consistent.reset_eq (hs : s.Consistent) (hmem : timer ∈ s.timers)
    (hcb : (s.memory timer).cb.isSome) (ms : UInt64) (fromNow : Bool) (now : UInt64) :
    s.reset timer ms fromNow now =
      (true, ((s.erase (s.find timer)).store timer
        (s.resetTo timer ms fromNow now)).addTimerPtr timer) := by
  have hfound : s.find timer ≠ s.timers.length := Nat.ne_of_lt (hs.find_of_mem hmem).1
  rw [TimerManager.reset, if_pos hcb]
  exact if_pos hfound

/-- The deadline of a reset timer is the start and the new interval exactly when it is counted from
now or the interval stays the same. -/
theorem resetTo_next_iff (s : TimerManager γ κ) (timer : Address) (ms : UInt64) (fromNow : Bool)
    (now : UInt64) :
    (s.resetTo timer ms fromNow now).next = s.startOf timer fromNow now + ms ↔
      fromNow = true ∨ ms = (s.memory timer).ms := by
  rw [resetTo, startOf]
  cases fromNow with
  | true => exact iff_of_true rfl (Or.inl rfl)
  | false =>
    have hold : (s.memory timer).next =
        (s.memory timer).next - (s.memory timer).ms + (s.memory timer).ms :=
      (UInt64.sub_add_cancel _ _).symm
    simp only [Bool.false_eq_true, if_false, false_or]
    constructor
    · intro hnext
      exact (UInt64.add_right_inj _).mp (hnext.symm.trans hold)
    · intro hsame
      rw [hsame]
      exact hold

/-- Assumes: a timer of the set that has a callback, in any state that a run reaches. `reset` does
what it is for if and only if it counts from now or does not change the interval. -/
theorem resets_iff {trace : List (Action γ κ × Outcome γ κ)} {reached : TimerManager γ κ}
    (hrun : Run step Guard init trace reached) (hmem : timer ∈ reached.timers)
    (hcb : (reached.memory timer).cb.isSome) (ms : UInt64) (fromNow : Bool) (now : UInt64) :
    Resets reached timer ms fromNow now ↔ fromNow = true ∨ ms = (reached.memory timer).ms := by
  have hs := consistent_of_run hrun
  have hreset := hs.reset_eq hmem hcb ms fromNow now
  obtain ⟨honce, hself, hothers⟩ := hs.replaced hmem (reached.resetTo timer ms fromNow now)
  have hfront := hs.replaced_atFront hmem (reached.resetTo timer ms fromNow now)
  have hmemory : (reached.reset timer ms fromNow now).2.2.memory timer =
      reached.resetTo timer ms fromNow now := by
    rw [hreset]
    exact hself
  rw [← resetTo_next_iff reached timer ms fromNow now]
  constructor
  · intro hresets
    rw [← hresets.next, hmemory]
  · intro hnext
    refine ⟨by rw [hreset], by rw [hreset]; exact honce, by rw [hmemory]; rfl, ?_, ?_, ?_, ?_, ?_⟩
    · rw [hmemory]
      exact hnext
    · rw [hmemory]
      rfl
    · rw [hmemory]
      rfl
    · rw [hreset]
      exact hothers
    · rw [hreset]
      exact hfront

/-- A second timer, which is due after the first, is reset to be due before it. -/
theorem resets_second_of_two :
    ∃ (trace : List (Action Unit Unit × Outcome Unit Unit)) (reached : TimerManager Unit Unit),
      Run step Guard init trace reached ∧ reached.timers = [1, 2] ∧
        Resets reached 2 10 true 110 ∧ (reached.reset 2 10 true 110).2.2.timers = [2, 1] := by
  have hempty : Run step Guard (init : TimerManager Unit Unit) [] init := Run.nil
  have hfirst := hempty.snoc (show Guard _ (.addTimer 1 50 (some ()) false 100) from
    List.not_mem_nil) rfl
  have hsecond := hfirst.snoc (show Guard _ (.addTimer 2 70 (some ()) true 100) from
    (show (2 : Address) ∉ [1] by decide)) rfl
  exact ⟨_, _, hsecond, by decide,
    (resets_iff hsecond (by decide) (by decide) 10 true 110).mpr (Or.inl rfl), by decide⟩

/-- A timer with an interval of 50 that was added at 100 is reset to 20 without `from_now`: it is
still due at 150. -/
theorem not_resets_shorter :
    ∃ (trace : List (Action Unit Unit × Outcome Unit Unit)) (reached : TimerManager Unit Unit),
      Run step Guard init trace reached ∧ 1 ∈ reached.timers ∧ (reached.memory 1).cb.isSome ∧
        reached.startOf 1 false 110 + 20 = 120 ∧
        ((reached.reset 1 20 false 110).2.2.memory 1).next = 150 ∧
        ¬ Resets reached 1 20 false 110 := by
  have hempty : Run step Guard (init : TimerManager Unit Unit) [] init := Run.nil
  have hadded := hempty.snoc (show Guard _ (.addTimer 1 50 (some ()) false 100) from
    List.not_mem_nil) rfl
  refine ⟨_, _, hadded, by decide, by decide, by decide, by decide, ?_⟩
  intro hresets
  exact absurd hresets.next (by decide)

end Cczoe.Timers.TimerManager
