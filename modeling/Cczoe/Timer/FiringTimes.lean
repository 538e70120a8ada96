import Mathlib.Algebra.Group.Nat.Defs
import Mathlib.Data.Fintype.EquivFin
import Cczoe.Timer.Expiry

/-!
# When timers fire

An interval of a timer begins when the timer is made, and again whenever a recurring timer fires.
`FiresOnTime` says that it is over when the timer fires next, in every run that goes on with a clock
that does not go back and does not reset or refresh the timer. The deadline is a sum of two 64-bit
numbers: `firesOnTime_iff` says that a timer never fires early exactly when this sum does not
overflow, and otherwise the timer fires at once.
-/

set_option autoImplicit false
set_option relaxedAutoImplicit false

namespace Cczoe.Timers

open Cczoe.Foundations

variable {γ κ : Type}

/-- The clock reading that an operation makes. -/
def Action.reading : Action γ κ → Option UInt64
  | .addTimer _ _ _ _ now | .addConditionTimer _ _ _ _ _ now => some now
  | .reset _ _ fromNow now => if fromNow then some now else none
  | .refresh _ now | .getExpiredCb _ now => some now
  | .cancel _ | .release _ => none

/-- The clock readings of a run. -/
def readings (trace : List (Action γ κ × Outcome γ κ)) : List UInt64 :=
  trace.filterMap fun entry ↦ entry.1.reading

/-- An operation makes a timer, or gives it a new deadline at the wish of the user. -/
def Action.rearms (action : Action γ κ) (timer : Address) : Bool :=
  match action with
  | .addTimer address _ _ _ _ | .addConditionTimer address _ _ _ _ _ => address == timer
  | .reset address _ _ _ | .refresh address _ => address == timer
  | .cancel _ | .getExpiredCb _ _ | .release _ => false

namespace TimerManager

/-- A call of `getExpiredCb` takes the timer out of the set, and returns its callback. -/
def Fires (s : TimerManager γ κ) (probe : Address) (now : UInt64) (timer : Address) : Prop :=
  timer ∈ s.timers.take (s.expiredEnd probe now)

/-- An interval of a timer begins: the timer is made, or it is recurring and fires. -/
def Begins (s : TimerManager γ κ) (action : Action γ κ) (timer : Address) (began : UInt64) : Prop :=
  match action with
  | .addTimer address _ _ _ now | .addConditionTimer address _ _ _ _ now =>
    address = timer ∧ now = began
  | .getExpiredCb probe now =>
    s.Fires probe now timer ∧ (s.memory timer).recurring = true ∧ now = began
  | .cancel _ | .reset _ _ _ _ | .refresh _ _ | .release _ => False

/-- In whatever run goes on from here, with a clock that does not go back and without a reset or
refresh of the timer, it fires only when the interval that began last is over. -/
def FiresOnTime (s : TimerManager γ κ) (timer : Address) (began : UInt64) : Prop :=
  ∀ (trace : List (Action γ κ × Outcome γ κ)) (final : TimerManager γ κ) (probe : Address)
    (now : UInt64), Run step Guard s trace final →
    (∀ entry ∈ trace, entry.1.rearms timer = false) →
    (began :: (readings trace ++ [now])).Pairwise (· ≤ ·) →
    final.Guard (.getExpiredCb probe now) → final.Fires probe now timer →
    began.toNat + (s.memory timer).ms.toNat ≤ now.toNat

variable {s : TimerManager γ κ} {timer probe : Address} {now began : UInt64}

/-- Assumes: the manager is consistent. `getExpiredCb` returns the callbacks of the timers that
fire. -/
theorem Consistent.getExpiredCb_callbacks (hs : s.Consistent) (probe : Address) (now : UInt64) :
    (s.getExpiredCb probe now).1 =
      (s.timers.take (s.expiredEnd probe now)).map fun timer ↦ (s.memory timer).cb := by
  rw [TimerManager.getExpiredCb]
  by_cases hempty : s.timers.isEmpty = true
  · rw [if_pos hempty, List.isEmpty_iff.mp hempty, List.take_nil, List.map_nil]
  · rw [if_neg hempty]
    exact expireAll_callbacks (hs.expiring _).distinct

/-- Assumes: the timer that the search is made with is new. The timers that fire are those of the
set that are due. -/
theorem Consistent.fires_iff (hs : s.Consistent) (hprobe : probe ∉ s.live) :
    s.Fires probe now timer ↔ timer ∈ s.timers ∧ (s.memory timer).next ≤ now := by
  have hnot : probe ∉ s.timers := fun hin ↦ hprobe (hs.tracked probe hin)
  rw [Fires, (expiredEnd_due hs.ordered hnot now).1, mem_due]

/-- A new timer is in the set, due at the end of its interval. -/
theorem Consistent.addTimer_begins (hs : s.Consistent) (hfree : timer ∉ s.live) (ms : UInt64)
    (cb : Option (Callback γ κ)) (recurring : Bool) (now : UInt64) :
    timer ∈ (s.addTimer timer ms cb recurring now).2.timers ∧
      ((s.addTimer timer ms cb recurring now).2.memory timer).next =
        now + ((s.addTimer timer ms cb recurring now).2.memory timer).ms := by
  have hnot : timer ∉ s.timers := fun hmem ↦ hfree (hs.tracked timer hmem)
  constructor
  · exact (insert_updated hs.ordered hnot _).2.mem_iff.mpr List.mem_cons_self
  · rw [addTimer_memory_self]

/-- Assumes: a call that begins an interval. The timer is in the set then, due at its end. -/
theorem Consistent.begins_effect (hs : s.Consistent) {action : Action γ κ}
    {outcome : Outcome γ κ} {next : TimerManager γ κ} (hguard : s.Guard action)
    (hstep : TimerManager.step action s = .ok (outcome, next))
    (hbegins : s.Begins action timer began) :
    timer ∈ next.timers ∧ (next.memory timer).next = began + (next.memory timer).ms := by
  cases action with
  | addTimer address ms cb recurring now =>
    obtain ⟨rfl, rfl⟩ := hbegins
    cases hstep
    exact hs.addTimer_begins hguard _ _ _ _
  | addConditionTimer address ms cb cond recurring now =>
    obtain ⟨rfl, rfl⟩ := hbegins
    cases hstep
    exact hs.addTimer_begins hguard _ _ _ _
  | getExpiredCb probe now =>
    obtain ⟨hfires, hrecurring, rfl⟩ := hbegins
    cases hstep
    have hnot : probe ∉ s.timers := fun hin ↦ hguard (hs.tracked probe hin)
    obtain ⟨hmem, hdue⟩ := (hs.fires_iff hguard).mp hfires
    rw [getExpiredCb_eq hs.ordered hnot]
    obtain ⟨honce, hmemory⟩ :=
      (expireAll_expired hs.ordered).recurring timer hmem hdue hrecurring
    refine ⟨List.one_le_count_iff.mp (Nat.le_of_eq honce.symm), ?_⟩
    rw [hmemory]
  | cancel timer => exact hbegins.elim
  | reset timer ms fromNow now => exact hbegins.elim
  | refresh timer now => exact hbegins.elim
  | release timer => exact hbegins.elim

/-- A call that does not rearm the timer keeps its deadline, or the timer fires. -/
theorem step_next {action : Action γ κ} {outcome : Outcome γ κ} {next : TimerManager γ κ}
    (hrearms : action.rearms timer = false) (hstep : step action s = .ok (outcome, next)) :
    (next.memory timer).next = (s.memory timer).next ∨
      ∃ probe now, action = .getExpiredCb probe now ∧ s.Fires probe now timer := by
  rcases step_seen timer hstep with ⟨probe, now, rfl⟩ | htarget | ⟨-, hmemory⟩
  · cases hstep
    by_cases hfires : s.Fires probe now timer
    · exact Or.inr ⟨probe, now, rfl, hfires⟩
    · left
      rw [getExpiredCb]
      split_ifs
      · rfl
      · exact congrArg Timer.next (expireAll_memory_of_notMem hfires)
  · left
    cases action with
    | cancel other =>
      cases htarget
      obtain ⟨done, hcancel⟩ := step_cancel hstep
      rcases cancel_cases hcancel with rfl | ⟨position, rfl⟩
      · rfl
      · rw [erase_memory, store_memory_self]
    | release other =>
      cases hstep
      rfl
    | getExpiredCb probe now => cases htarget
    | _ =>
      cases htarget
      exact absurd rfl (beq_eq_false_iff_ne.mp hrearms)
  · exact Or.inl (congrArg Timer.next hmemory)

/-- Assumes: a timer is due at the end of an interval, in a consistent manager. Wherever a run goes
that does not rearm it, it is still due then, or the end of the interval has been read from the
clock. -/
theorem Consistent.next_of_run (hs : s.Consistent) {due : ℕ}
    (hdue : (s.memory timer).next.toNat = due)
    {trace : List (Action γ κ × Outcome γ κ)} {final : TimerManager γ κ}
    (hrun : Run TimerManager.step Guard s trace final)
    (hspared : ∀ entry ∈ trace, entry.1.rearms timer = false) :
    final.Consistent ∧
      ((final.memory timer).next.toNat = due ∨
        ∃ reading ∈ readings trace, due ≤ reading.toNat) := by
  let reached : List (Action γ κ × Outcome γ κ) → TimerManager γ κ → Prop := fun trace now ↦
    now.Consistent ∧ ((∀ entry ∈ trace, entry.1.rearms timer = false) →
      (now.memory timer).next.toNat = due ∨ ∃ reading ∈ readings trace, due ≤ reading.toNat)
  have hstart : reached [] s := ⟨hs, fun _ ↦ Or.inl hdue⟩
  have hfinal : reached trace final := by
    refine hrun.history_invariant hstart ?_
    rintro trace before action outcome next ⟨hbefore, hnow⟩ hguard hstep
    obtain ⟨_, _, hreturned, hnext⟩ := hbefore.step hguard
    cases hstep.symm.trans hreturned
    refine ⟨hnext, fun hall ↦ ?_⟩
    have hreadings : readings (trace ++ [(action, outcome)]) =
        readings trace ++ action.reading.toList := by
      rw [readings, List.filterMap_append, ← readings]
      cases hreading : action.reading <;> simp [hreading]
    rw [hreadings]
    rcases hnow fun entry hentry ↦ hall entry (List.mem_append_left _ hentry) with
      hsame | ⟨reading, hmem, hover⟩
    · have hrearms : action.rearms timer = false :=
        hall (action, outcome) (List.mem_append_right _ (List.mem_singleton_self _))
      rcases step_next hrearms hstep with hkept | ⟨probe, now, rfl, hfires⟩
      · exact Or.inl (hkept ▸ hsame)
      · -- the timer fires, so the reading has reached its deadline
        have hle := ((hbefore.fires_iff hguard).mp hfires).2
        refine Or.inr ⟨now, List.mem_append_right _ List.mem_cons_self, ?_⟩
        exact hsame ▸ UInt64.le_iff_toNat_le.mp hle
    · exact Or.inr ⟨reading, List.mem_append_left _ hmem, hover⟩
  exact ⟨hfinal.1, hfinal.2 hspared⟩

/-- Assumes: the deadline of a timer does not overflow. The timer fires on time. -/
theorem Consistent.firesOnTime (hs : s.Consistent)
    (hnext : (s.memory timer).next = began + (s.memory timer).ms)
    (hfits : began.toNat + (s.memory timer).ms.toNat < 2 ^ 64) : s.FiresOnTime timer began := by
  have hdue : (s.memory timer).next.toNat = began.toNat + (s.memory timer).ms.toNat := by
    rw [hnext, UInt64.toNat_add, Nat.mod_eq_of_lt hfits]
  intro trace final probe now hrun hspared hclock hguard hfires
  obtain ⟨hfinal, hstate⟩ := hs.next_of_run hdue hrun hspared
  have hle := UInt64.le_iff_toNat_le.mp ((hfinal.fires_iff hguard).mp hfires).2
  rcases hstate with hsame | ⟨reading, hmem, hover⟩
  · exact hsame ▸ hle
  · have hlast := (List.pairwise_append.mp (List.pairwise_cons.mp hclock).2).2.2
    exact Nat.le_trans hover
      (UInt64.le_iff_toNat_le.mp (hlast reading hmem now (List.mem_singleton_self _)))

/-- Assumes: the deadline of a timer of the set overflows. The timer fires at once. -/
theorem Consistent.not_firesOnTime (hs : s.Consistent) (hmem : timer ∈ s.timers)
    (hnext : (s.memory timer).next = began + (s.memory timer).ms)
    (hover : ¬ began.toNat + (s.memory timer).ms.toNat < 2 ^ 64) :
    ¬ s.FiresOnTime timer began := by
  intro hontime
  obtain ⟨probe, hprobe⟩ := Infinite.exists_notMem_finset s.live.toFinset
  have hfresh : probe ∉ s.live := fun hin ↦ hprobe (List.mem_toFinset.mpr hin)
  have hbegan := began.toNat_lt
  have hms := (s.memory timer).ms.toNat_lt
  have hwrapped : (s.memory timer).next ≤ began := by
    rw [hnext, UInt64.le_iff_toNat_le, UInt64.toNat_add]
    omega
  have hlate := hontime [] s probe began Run.nil (fun _ hin ↦ absurd hin List.not_mem_nil)
    (List.pairwise_pair.mpr (UInt64.le_refl _)) hfresh
    ((hs.fires_iff hfresh).mpr ⟨hmem, hwrapped⟩)
  omega

/-- Assumes: a call in a run that begins an interval of a timer. The timer fires on time if and only
if the sum of the clock reading and the interval is less than `2 ^ 64`. -/
theorem firesOnTime_iff {trace : List (Action γ κ × Outcome γ κ)} {reached next : TimerManager γ κ}
    {action : Action γ κ} {outcome : Outcome γ κ} (hrun : Run step Guard init trace reached)
    (hguard : reached.Guard action) (hstep : step action reached = .ok (outcome, next))
    (hbegins : reached.Begins action timer began) :
    next.FiresOnTime timer began ↔ began.toNat + (next.memory timer).ms.toNat < 2 ^ 64 := by
  have hs := consistent_of_run hrun
  have hnext := consistent_of_run (hrun.snoc hguard hstep)
  obtain ⟨hmem, hdeadline⟩ := hs.begins_effect hguard hstep hbegins
  constructor
  · intro hontime
    by_contra hover
    exact hnext.not_firesOnTime hmem hdeadline hover hontime
  · intro hfits
    exact hnext.firesOnTime hdeadline hfits

/-- A recurring timer with an interval of 50 is made at 100 and fires at 160. It fires on time from
then on, not before 210. -/
theorem firesOnTime_recurring :
    ∃ (trace : List (Action Unit Unit × Outcome Unit Unit)) (fired : TimerManager Unit Unit),
      Run step Guard init trace fired ∧ (fired.memory 1).next = 210 ∧ fired.FiresOnTime 1 160 := by
  have hempty : Run step Guard (init : TimerManager Unit Unit) [] init := Run.nil
  have hadded := hempty.snoc (show Guard _ (.addTimer 1 50 (some ()) true 100) from
    List.not_mem_nil) rfl
  have hguard : Guard (init.addTimer 1 50 (some (.given ())) true 100).2
      (.getExpiredCb 2 160 : Action Unit Unit) := show (2 : Address) ∉ [1] by decide
  have hfired := hadded.snoc hguard rfl
  have hbegins : Begins (init.addTimer 1 50 (some (.given ())) true 100).2
      (.getExpiredCb 2 160 : Action Unit Unit) 1 160 := by
    refine ⟨?_, by decide, rfl⟩
    unfold Fires
    decide
  exact ⟨_, _, hfired, by decide, (firesOnTime_iff hadded hguard rfl hbegins).mpr (by decide)⟩

/-- A timer is made at 5000 with the interval that a socket timeout of minus one second is stored
as: `getExpiredCb` returns its callback at 5000. -/
theorem not_firesOnTime_negative :
    ∃ (trace : List (Action Unit Unit × Outcome Unit Unit)) (made : TimerManager Unit Unit),
      Run step Guard init trace made ∧
        (init : TimerManager Unit Unit).Begins
          (.addTimer 1 18446744073709550616 (some ()) false 5000) 1 5000 ∧
        (made.getExpiredCb 2 5000).1 = [some (.given ())] ∧ ¬ made.FiresOnTime 1 5000 := by
  have hempty : Run step Guard (init : TimerManager Unit Unit) [] init := Run.nil
  have hmade := hempty.snoc (show Guard _
    (.addTimer 1 18446744073709550616 (some ()) false 5000) from List.not_mem_nil) rfl
  refine ⟨_, _, hmade, ⟨rfl, rfl⟩, by decide +kernel, ?_⟩
  exact (consistent_of_run hmade).not_firesOnTime (by decide +kernel) (by decide +kernel)
    (by decide +kernel)

end TimerManager

end Cczoe.Timers
