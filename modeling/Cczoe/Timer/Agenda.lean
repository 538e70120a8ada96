import Cczoe.Timer.RefreshedTimers
import Cczoe.Timer.ResetTimers

/-!
# What a timer manager is for

An `Agenda` says which timers are scheduled and what they are: it has no set, no order of insertion
and no timers that are in memory only. `Agenda.after` and `Agenda.Answers` say what an operation
makes of it and returns. `TimerManager.agenda` is the agenda that a manager stands for, and
`Consistent.step_agenda` says that every operation of the manager does to it what it should, so that
`timerManager_keeps_agenda` follows for whole runs: what the operations return and how long the next
timer has to wait depends on the agenda alone.
-/

set_option autoImplicit false
set_option relaxedAutoImplicit false

namespace Cczoe.Timers

open Cczoe.Foundations

variable {γ κ : Type}

/-- The timers that are scheduled. -/
abbrev Agenda (γ κ : Type) := Address → Option (Timer γ κ)

namespace Agenda

/-- Nothing is scheduled. -/
def empty : Agenda γ κ := fun _ ↦ none

/-- What a timer that is due becomes. -/
def rescheduled (value : Timer γ κ) (now : UInt64) : Option (Timer γ κ) :=
  if value.recurring then some { value with next := now + value.ms } else none

/-- A scheduled timer that has a callback changes. -/
def amend (agenda : Agenda γ κ) (timer : Address) (change : Timer γ κ → Option (Timer γ κ)) :
    Agenda γ κ :=
  Function.update agenda timer
    ((agenda timer).bind fun value ↦ if value.cb.isSome then change value else some value)

/-- The agenda after an operation. -/
def after (agenda : Agenda γ κ) : Action γ κ → Agenda γ κ
  | .addTimer address ms cb recurring now =>
    Function.update agenda address (some ⟨recurring, ms, now + ms, cb.map .given⟩)
  | .addConditionTimer address ms cb cond recurring now =>
    Function.update agenda address (some ⟨recurring, ms, now + ms, some (.conditional cb cond)⟩)
  | .cancel timer => agenda.amend timer fun _ ↦ none
  | .reset timer ms fromNow now => agenda.amend timer fun value ↦
    some { value with ms := ms, next := if fromNow then now + ms else value.next }
  | .refresh timer now => agenda.amend timer fun value ↦
    some { value with cb := none, next := now + value.ms }
  | .getExpiredCb _ now => fun timer ↦ (agenda timer).bind fun value ↦
    if value.next ≤ now then rescheduled value now else some value
  | .release _ => agenda

/-- The rank of a timer: by deadline, then by address. -/
def rank (timer : Address) (value : Timer γ κ) : ℕ ×ₗ Address := toLex (value.next.toNat, timer)

/-- The timer is scheduled with a callback. -/
def Armed (agenda : Agenda γ κ) (timer : Address) : Prop :=
  ∃ value, agenda timer = some value ∧ value.cb.isSome

/-- The timer is scheduled, and no other is before it. -/
def First (agenda : Agenda γ κ) (timer : Address) : Prop :=
  ∃ value, agenda timer = some value ∧
    ∀ other later, agenda other = some later → rank timer value ≤ rank other later

/-- The callbacks of the timers that are due, in the order of their ranks. -/
def Due (agenda : Agenda γ κ) (now : UInt64) (cbs : List (Option (Callback γ κ))) : Prop :=
  ∃ due : List (Address × Timer γ κ), cbs = due.map (fun entry ↦ entry.2.cb) ∧
    due.Pairwise (fun first second ↦ rank first.1 first.2 < rank second.1 second.2) ∧
    ∀ timer value, (timer, value) ∈ due ↔ agenda timer = some value ∧ value.next ≤ now

/-- What an operation returns: whether it found the timer with a callback, whether the timer is the
first one then, and the callbacks that are due. -/
def Answers (agenda : Agenda γ κ) (action : Action γ κ) (outcome : Outcome γ κ) : Prop :=
  match action with
  | .addTimer address _ _ _ _ | .addConditionTimer address _ _ _ _ _ =>
    ∃ atFront, outcome = .timer address atFront ∧
      (atFront = true ↔ (agenda.after action).First address)
  | .cancel timer | .refresh timer _ =>
    ∃ done, outcome = .result done false ∧ (done = true ↔ agenda.Armed timer)
  | .reset timer _ _ _ =>
    ∃ done atFront, outcome = .result done atFront ∧ (done = true ↔ agenda.Armed timer) ∧
      (atFront = true ↔ agenda.Armed timer ∧ (agenda.after action).First timer)
  | .getExpiredCb _ now => ∃ cbs, outcome = .callbacks cbs ∧ agenda.Due now cbs
  | .release _ => outcome = .released

/-- How long to wait for the next timer: the largest number when nothing is scheduled. -/
def Waits (agenda : Agenda γ κ) (now wait : UInt64) : Prop :=
  ((∀ timer, agenda timer = none) ∧ wait = 0xffffffffffffffff) ∨
    ∃ timer value, agenda.First timer ∧ agenda timer = some value ∧
      wait.toNat = value.next.toNat - now.toNat

/-- The agenda after a trace. -/
def ofTrace (trace : List (Action γ κ × Outcome γ κ)) : Agenda γ κ :=
  trace.foldl (fun agenda entry ↦ agenda.after entry.1) empty

theorem ofTrace_snoc (trace : List (Action γ κ × Outcome γ κ)) (entry : Action γ κ × Outcome γ κ) :
    ofTrace (trace ++ [entry]) = (ofTrace trace).after entry.1 := by
  rw [ofTrace, List.foldl_append]
  rfl

variable {agenda : Agenda γ κ} {timer : Address} {value : Timer γ κ}

theorem amend_of_armed {change : Timer γ κ → Option (Timer γ κ)}
    (hvalue : agenda timer = some value) (hcb : value.cb.isSome) :
    agenda.amend timer change = Function.update agenda timer (change value) := by
  rw [amend, hvalue, Option.bind_some, if_pos hcb]

/-- A timer that is not scheduled with a callback is not changed. -/
theorem amend_of_not_armed {change : Timer γ κ → Option (Timer γ κ)} (hnot : ¬ agenda.Armed timer) :
    agenda.amend timer change = agenda := by
  rw [amend]
  refine Function.update_eq_self_iff.mpr ?_
  cases hvalue : agenda timer with
  | none => rfl
  | some value =>
    have hcb : ¬ value.cb.isSome = true := fun hcb ↦ hnot ⟨value, hvalue, hcb⟩
    rw [Option.bind_some, if_neg hcb]

/-- Assumes: a change that keeps a timer on the agenda. The same timers are scheduled. -/
theorem amend_isSome {change : Timer γ κ → Option (Timer γ κ)}
    (hchange : ∀ value, (change value).isSome) (other : Address) :
    (agenda.amend timer change other).isSome = (agenda other).isSome := by
  by_cases harmed : agenda.Armed timer
  · obtain ⟨value, hvalue, hcb⟩ := harmed
    rw [amend_of_armed hvalue hcb]
    by_cases hsame : other = timer
    · rw [hsame, Function.update_self, hchange value, hvalue, Option.isSome_some]
    · rw [Function.update_of_ne hsame]
  · rw [amend_of_not_armed harmed]

end Agenda

namespace TimerManager

open Agenda

variable {s next : TimerManager γ κ} {timer : Address}

/-- The agenda that a manager stands for. -/
def agenda (s : TimerManager γ κ) : Agenda γ κ := fun timer ↦
  if timer ∈ s.timers then some (s.memory timer) else none

theorem agenda_of_mem (hmem : timer ∈ s.timers) : s.agenda timer = some (s.memory timer) :=
  if_pos hmem

theorem agenda_of_notMem (hnot : timer ∉ s.timers) : s.agenda timer = none := if_neg hnot

theorem agenda_isSome_iff : (s.agenda timer).isSome = true ↔ timer ∈ s.timers := by
  by_cases hmem : timer ∈ s.timers
  · exact iff_of_true (agenda_of_mem hmem ▸ rfl) hmem
  · exact iff_of_false (agenda_of_notMem hmem ▸ Bool.false_ne_true) hmem

theorem agenda_eq_some_iff {value : Timer γ κ} :
    s.agenda timer = some value ↔ timer ∈ s.timers ∧ s.memory timer = value := by
  by_cases hmem : timer ∈ s.timers
  · rw [agenda_of_mem hmem, Option.some_inj]
    exact (and_iff_right hmem).symm
  · rw [agenda_of_notMem hmem]
    exact iff_of_false (Option.some_ne_none value).symm fun h ↦ hmem h.1

/-- A live timer that has a callback is scheduled with it. -/
theorem Consistent.armed_iff (hs : s.Consistent) (hlive : timer ∈ s.live) :
    s.agenda.Armed timer ↔ (s.memory timer).cb.isSome = true := by
  constructor
  · rintro ⟨value, hvalue, hcb⟩
    exact (agenda_eq_some_iff.mp hvalue).2 ▸ hcb
  · intro hcb
    exact ⟨_, agenda_of_mem (hs.armed timer hlive hcb), hcb⟩

/-- Assumes: one timer is as given afterwards, and all others are as before. -/
theorem agenda_eq_update {value : Option (Timer γ κ)} (hself : next.agenda timer = value)
    (hothers : ∀ other, other ≠ timer →
      (other ∈ next.timers ↔ other ∈ s.timers) ∧ next.memory other = s.memory other) :
    next.agenda = Function.update s.agenda timer value := by
  ext1 other
  by_cases hsame : other = timer
  · rw [hsame, Function.update_self, hself]
  · rw [Function.update_of_ne hsame, agenda, agenda, (hothers other hsame).2]
    simp only [(hothers other hsame).1]

/-- A timer is first in the agenda of a manager. -/
theorem agenda_first_iff (hmem : timer ∈ s.timers) :
    s.agenda.First timer ↔
      ∀ other ∈ s.timers, deadline s.memory timer ≤ deadline s.memory other := by
  constructor
  · rintro ⟨value, hvalue, hfirst⟩ other hother
    obtain rfl := (agenda_eq_some_iff.mp hvalue).2
    exact hfirst other _ (agenda_of_mem hother)
  · intro hfirst
    refine ⟨_, agenda_of_mem hmem, ?_⟩
    intro other later hlater
    obtain ⟨hother, rfl⟩ := agenda_eq_some_iff.mp hlater
    exact hfirst other hother

/-! ### One operation -/

/-- Assumes: the memory at the address is free. The timer is scheduled, and the callback for the
front is called exactly when no timer is before it. -/
theorem Consistent.addTimer_agenda (hs : s.Consistent) {address : Address}
    (hfree : address ∉ s.live) (ms : UInt64) (cb : Option (Callback γ κ)) (recurring : Bool)
    (now : UInt64) :
    (s.addTimer address ms cb recurring now).2.agenda =
        Function.update s.agenda address (some ⟨recurring, ms, now + ms, cb⟩) ∧
      ((s.addTimer address ms cb recurring now).1 = true ↔
        (s.addTimer address ms cb recurring now).2.agenda.First address) := by
  have hnot : address ∉ s.timers := fun hmem ↦ hfree (hs.tracked address hmem)
  obtain ⟨value, hvalue⟩ : ∃ value : Timer γ κ, value = ⟨recurring, ms, now + ms, cb⟩ := ⟨_, rfl⟩
  obtain ⟨after, hafter⟩ :
      ∃ after, after = (s.addTimer address ms cb recurring now).2 := ⟨_, rfl⟩
  have hmemory : after.memory = Function.update s.memory address value := by
    rw [hafter, hvalue]
    rfl
  have htimers : after.timers = (OrderedSet.insert
      (less (Function.update s.memory address value)) address s.timers).1 := by
    rw [hafter, hvalue]
    rfl
  have hmem : ∀ other, other ∈ after.timers ↔ other = address ∨ other ∈ s.timers := by
    intro other
    rw [htimers, ← List.mem_cons]
    exact (insert_updated hs.ordered hnot value).2.mem_iff
  have hself : address ∈ after.timers := (hmem address).mpr (Or.inl rfl)
  have hfresh : ∀ other ∈ s.timers, deadline (Function.update s.memory address value) other ≠
      deadline (Function.update s.memory address value) address := fun other hother ↦
    deadline_ne fun hsame ↦ hnot (hsame ▸ hother)
  have hupdated := increasing_update hs.ordered hnot value
  have hposition := hupdated.insert_position_eq_zero_iff less_iff hfresh
  have hfront : (s.addTimer address ms cb recurring now).1 = true ↔
      (OrderedSet.insert (less (Function.update s.memory address value)) address
        s.timers).2.1 = 0 := by
    rw [TimerManager.addTimer, addTimerPtr, Bool.and_eq_true, beq_iff_eq, ← hvalue]
    exact and_iff_right (hupdated.insert_of_fresh less_iff hfresh).1
  rw [← hvalue, ← hafter]
  constructor
  · refine agenda_eq_update ?_ ?_
    · rw [agenda_of_mem hself, hmemory, Function.update_self]
    · intro other hne
      exact ⟨(hmem other).trans (or_iff_right hne),
        hmemory ▸ Function.update_of_ne hne value s.memory⟩
  · rw [hfront, hposition, agenda_first_iff hself, hmemory]
    constructor
    · intro hlowest other hother
      rcases (hmem other).mp hother with hsame | hold
      · rw [hsame]
      · exact le_of_lt (hlowest other hold)
    · intro hlowest other hother
      exact lt_of_le_of_ne (hlowest other ((hmem other).mpr (Or.inr hother)))
        (hfresh other hother).symm

/-- Assumes: the timer is live. `cancel` takes it off the agenda if it has a callback. -/
theorem Consistent.cancel_agenda (hs : s.Consistent) (hlive : timer ∈ s.live) {done : Bool}
    (hcancel : s.cancel timer = .ok (done, next)) :
    next.agenda = s.agenda.amend timer (fun _ ↦ none) ∧
      (done = true ↔ s.agenda.Armed timer) := by
  have harmed := hs.armed_iff hlive
  by_cases hcb : (s.memory timer).cb.isSome
  · have hmem : timer ∈ s.timers := hs.armed timer hlive hcb
    obtain ⟨hfound, -, hothers⟩ := (hs.clear timer).find_of_mem hmem
    rw [TimerManager.cancel, if_pos hcb, if_pos hfound] at hcancel
    cases hcancel
    refine ⟨?_, iff_of_true rfl (harmed.mpr hcb)⟩
    rw [amend_of_armed (agenda_of_mem hmem) hcb]
    refine agenda_eq_update (agenda_of_notMem fun hin ↦ ((hothers timer).mp hin).2 rfl) ?_
    intro other hne
    exact ⟨(hothers other).trans (and_iff_left hne), store_memory_of_ne _ _ hne⟩
  · rw [TimerManager.cancel, if_neg hcb] at hcancel
    cases hcancel
    exact ⟨(amend_of_not_armed fun h ↦ hcb (harmed.mp h)).symm,
      iff_of_false Bool.false_ne_true fun h ↦ hcb (harmed.mp h)⟩

/-- Assumes: a timer of the set that has a callback is put back with other fields. -/
theorem Replaced.agenda {value : Timer γ κ} (hnext : Replaced s timer value next)
    (hmem : timer ∈ s.timers) (hcb : (s.memory timer).cb.isSome)
    {change : Timer γ κ → Option (Timer γ κ)} (hchange : change (s.memory timer) = some value) :
    next.agenda = s.agenda.amend timer change := by
  have hin : timer ∈ next.timers := List.one_le_count_iff.mp (Nat.le_of_eq hnext.once.symm)
  rw [amend_of_armed (agenda_of_mem hmem) hcb, hchange]
  refine agenda_eq_update ?_ hnext.others
  rw [agenda_of_mem hin, hnext.value]

/-- Assumes: the timer is live. `reset` gives it another interval and deadline if it has a
callback. -/
theorem Consistent.reset_agenda (hs : s.Consistent) (hlive : timer ∈ s.live) (ms : UInt64)
    (fromNow : Bool) (now : UInt64) :
    (s.reset timer ms fromNow now).2.2.agenda =
        s.agenda.after (.reset timer ms fromNow now) ∧
      ((s.reset timer ms fromNow now).1 = true ↔ s.agenda.Armed timer) ∧
      ((s.reset timer ms fromNow now).2.1 = true ↔ s.agenda.Armed timer ∧
        (s.reset timer ms fromNow now).2.2.agenda.First timer) := by
  have harmed := hs.armed_iff hlive
  by_cases hcb : (s.memory timer).cb.isSome
  · have hmem : timer ∈ s.timers := hs.armed timer hlive hcb
    have hreplaced := hs.replaced hmem (s.resetTo timer ms fromNow now)
    have hfront := hs.replaced_atFront hmem (s.resetTo timer ms fromNow now)
    rw [hs.reset_eq hmem hcb ms fromNow now]
    refine ⟨hreplaced.agenda hmem hcb rfl, iff_of_true rfl (harmed.mpr hcb), ?_⟩
    rw [and_iff_right (harmed.mpr hcb)]
    refine hfront.trans (agenda_first_iff ?_).symm
    exact List.one_le_count_iff.mp (Nat.le_of_eq hreplaced.once.symm)
  · have hnot : ¬ s.agenda.Armed timer := fun h ↦ hcb (harmed.mp h)
    rw [TimerManager.reset, if_neg hcb]
    exact ⟨(amend_of_not_armed hnot).symm, iff_of_false Bool.false_ne_true hnot,
      iff_of_false Bool.false_ne_true fun h ↦ hnot h.1⟩

/-- Assumes: the timer is live. `refresh` gives it another deadline and takes its callback if it has
one. -/
theorem Consistent.refresh_agenda (hs : s.Consistent) (hlive : timer ∈ s.live) (now : UInt64) :
    (s.refresh timer now).2.agenda = s.agenda.after (.refresh timer now) ∧
      ((s.refresh timer now).1 = true ↔ s.agenda.Armed timer) := by
  have harmed := hs.armed_iff hlive
  by_cases hcb : (s.memory timer).cb.isSome
  · have hmem : timer ∈ s.timers := hs.armed timer hlive hcb
    obtain ⟨hdone, hrescheduled, hnone⟩ := hs.refresh_effect hmem hcb now
    refine ⟨?_, iff_of_true hdone (harmed.mpr hcb)⟩
    have hvalue : (s.refresh timer now).2.memory timer =
        { s.memory timer with cb := none, next := now + (s.memory timer).ms } := by
      cases hafter : (s.refresh timer now).2.memory timer
      have hnext := hrescheduled.next
      have hms := hrescheduled.ms
      have hrecurring := hrescheduled.recurring
      simp only [hafter] at hnext hms hrecurring hnone
      rw [hnext, hms, hrecurring, hnone]
    exact Replaced.agenda ⟨hrescheduled.once, hvalue, hrescheduled.others⟩ hmem hcb rfl
  · have hnot : ¬ s.agenda.Armed timer := fun h ↦ hcb (harmed.mp h)
    rw [TimerManager.refresh, if_neg hcb]
    exact ⟨(amend_of_not_armed hnot).symm, iff_of_false Bool.false_ne_true hnot⟩

/-- Assumes: a call as `Expired` says. It takes the timers that are due off the agenda, or gives
them another deadline when they recur, and returns their callbacks. -/
theorem Expired.agenda {now : UInt64} {cbs : List (Option (Callback γ κ))}
    (hcall : Expired s now cbs next) (probe : Address) :
    next.agenda = s.agenda.after (.getExpiredCb probe now) ∧ s.agenda.Due now cbs := by
  constructor
  · ext1 timer
    show next.agenda timer = (s.agenda timer).bind _
    by_cases hmem : timer ∈ s.timers
    · rw [agenda_of_mem hmem, Option.bind_some]
      by_cases hdue : (s.memory timer).next ≤ now
      · rw [if_pos hdue, rescheduled]
        cases hrecurring : (s.memory timer).recurring with
        | true =>
          obtain ⟨honce, hvalue⟩ := hcall.recurring timer hmem hdue hrecurring
          rw [agenda_of_mem (List.one_le_count_iff.mp (Nat.le_of_eq honce.symm)), hvalue,
            if_pos rfl, ← hrecurring]
        | false => exact agenda_of_notMem (hcall.oneShot timer hmem hdue hrecurring).1
      · obtain ⟨hin, hvalue⟩ := hcall.kept timer hmem (UInt64.not_le.mp hdue)
        rw [if_neg hdue, agenda_of_mem hin, hvalue]
    · rw [agenda_of_notMem hmem, Option.bind_none]
      exact agenda_of_notMem (hcall.others timer hmem).1
  · refine ⟨(s.due now).map fun timer ↦ (timer, s.memory timer), ?_, ?_, ?_⟩
    · rw [List.map_map]
      exact hcall.callbacks
    · exact List.pairwise_map.mpr hcall.sorted
    · intro timer value
      rw [List.mem_map, agenda_eq_some_iff]
      constructor
      · rintro ⟨other, hmem, hsame⟩
        cases hsame
        exact ⟨⟨(mem_due.mp hmem).1, rfl⟩, (mem_due.mp hmem).2⟩
      · rintro ⟨⟨hmem, rfl⟩, hdue⟩
        exact ⟨timer, mem_due.mpr ⟨hmem, hdue⟩, rfl⟩

/-- Assumes: an operation that can be called. It does to the agenda of the manager what it should,
and returns what the agenda says. -/
theorem Consistent.step_agenda (hs : s.Consistent) {action : Action γ κ} {outcome : Outcome γ κ}
    (hguard : s.Guard action) (hstep : TimerManager.step action s = .ok (outcome, next)) :
    next.agenda = s.agenda.after action ∧ s.agenda.Answers action outcome := by
  cases action with
  | addTimer address ms cb recurring now =>
    cases hstep
    obtain ⟨hagenda, hfront⟩ := hs.addTimer_agenda hguard ms (cb.map .given) recurring now
    exact ⟨hagenda, _, rfl, hfront.trans (by rw [hagenda]; rfl)⟩
  | addConditionTimer address ms cb cond recurring now =>
    cases hstep
    obtain ⟨hagenda, hfront⟩ :=
      hs.addTimer_agenda hguard ms (some (.conditional cb cond)) recurring now
    exact ⟨hagenda, _, rfl, hfront.trans (by rw [hagenda]; rfl)⟩
  | cancel timer =>
    rw [TimerManager.step] at hstep
    cases hcancel : s.cancel timer with
    | error fault =>
      rw [hcancel] at hstep
      cases hstep
    | ok result =>
      rw [hcancel] at hstep
      cases hstep
      obtain ⟨hagenda, hdone⟩ := hs.cancel_agenda hguard hcancel
      exact ⟨hagenda, _, rfl, hdone⟩
  | reset timer ms fromNow now =>
    cases hstep
    obtain ⟨hagenda, hdone, hfront⟩ := hs.reset_agenda hguard ms fromNow now
    exact ⟨hagenda, _, _, rfl, hdone, hagenda ▸ hfront⟩
  | refresh timer now =>
    cases hstep
    obtain ⟨hagenda, hdone⟩ := hs.refresh_agenda hguard now
    exact ⟨hagenda, _, rfl, hdone⟩
  | getExpiredCb probe now =>
    cases hstep
    have hprobe : probe ∉ s.timers := fun hin ↦ hguard (hs.tracked probe hin)
    rw [getExpiredCb_eq hs.ordered hprobe]
    have hcall : Expired s now _ _ := expireAll_expired hs.ordered
    obtain ⟨hagenda, hdue⟩ := hcall.agenda probe
    exact ⟨hagenda, _, rfl, hdue⟩
  | release timer =>
    cases hstep
    exact ⟨rfl, rfl⟩

/-! ### Runs -/

/-- The agenda of a manager is how long its next timer has to wait. -/
theorem Consistent.waits (hs : s.Consistent) (now : UInt64) :
    s.agenda.Waits now (s.getNextTimer now) := by
  rw [getNextTimer]
  cases htimers : s.timers with
  | nil =>
    refine Or.inl ⟨fun timer ↦ agenda_of_notMem ?_, rfl⟩
    rw [htimers]
    exact List.not_mem_nil
  | cons first rest =>
    have hmem : first ∈ s.timers := htimers ▸ List.mem_cons_self
    have hlowest : ∀ other ∈ s.timers, deadline s.memory first ≤ deadline s.memory other := by
      intro other hother
      have hordered := hs.ordered
      rw [htimers] at hother hordered
      rcases List.mem_cons.mp hother with hsame | hlater
      · rw [hsame]
      · exact le_of_lt ((List.pairwise_cons.mp hordered).1 other hlater)
    refine Or.inr ⟨first, _, (agenda_first_iff hmem).mpr hlowest, agenda_of_mem hmem, ?_⟩
    by_cases hdue : now ≥ (s.memory first).next
    · have hle : (s.memory first).next.toNat ≤ now.toNat := UInt64.le_iff_toNat_le.mp hdue
      simp only [if_pos hdue]
      exact (Nat.sub_eq_zero_of_le hle).symm
    · have hle : now ≤ (s.memory first).next := UInt64.le_of_lt (UInt64.not_le.mp hdue)
      simp only [if_neg hdue]
      exact UInt64.toNat_sub_of_le _ _ hle

/-- A run leaves a consistent manager that stands for the agenda after its trace. -/
theorem agenda_of_run {trace : List (Action γ κ × Outcome γ κ)} {final : TimerManager γ κ}
    (hrun : Run step Guard init trace final) :
    final.Consistent ∧ final.agenda = ofTrace trace := by
  let reached : List (Action γ κ × Outcome γ κ) → TimerManager γ κ → Prop := fun trace now ↦
    now.Consistent ∧ now.agenda = ofTrace trace
  have hstart : reached [] init :=
    ⟨consistent_init, funext fun _ ↦ agenda_of_notMem List.not_mem_nil⟩
  refine hrun.history_invariant hstart ?_
  rintro trace now action outcome next ⟨hnow, hagenda⟩ hguard hstep
  obtain ⟨_, _, hreturned, hnext⟩ := hnow.step hguard
  cases hstep.symm.trans hreturned
  refine ⟨hnext, ?_⟩
  rw [ofTrace_snoc, ← hagenda]
  exact (hnow.step_agenda hguard hstep).1

/-- Assumes: a run of the operations, with any clock readings and any addresses that are free. The
manager stands for the agenda that the operations make. Every operation of the run has returned what
the agenda before it says, the next timer has to wait as long as it says, and the manager is empty
when nothing is scheduled. -/
theorem timerManager_keeps_agenda {trace : List (Action γ κ × Outcome γ κ)}
    {final : TimerManager γ κ} (hrun : Run step Guard init trace final) :
    final.agenda = ofTrace trace ∧
      (∀ before action outcome rest, trace = before ++ (action, outcome) :: rest →
        (ofTrace before).Answers action outcome) ∧
      (∀ now, (ofTrace trace).Waits now (final.getNextTimer now)) ∧
      (final.empty = true ↔ ∀ timer, ofTrace trace timer = none) := by
  obtain ⟨hfinal, hagenda⟩ := agenda_of_run hrun
  refine ⟨hagenda, ?_, ?_, ?_⟩
  · intro before action outcome rest hsplit
    obtain ⟨now, next, hbefore, hguard, hstep, -⟩ := hrun.exists_step hsplit
    obtain ⟨hnow, hstands⟩ := agenda_of_run hbefore
    rw [← hstands]
    exact (hnow.step_agenda hguard hstep).2
  · intro now
    rw [← hagenda]
    exact hfinal.waits now
  · rw [← hagenda, TimerManager.empty, List.isEmpty_iff]
    constructor
    · intro hempty timer
      exact agenda_of_notMem (hempty ▸ List.not_mem_nil)
    · intro hnone
      refine List.eq_nil_iff_forall_not_mem.mpr fun timer hmem ↦ ?_
      exact Option.some_ne_none _ ((agenda_of_mem hmem).symm.trans (hnone timer))

/-- A timer is added at 100, another before it, and the second is cancelled: the first has to wait
for 50. -/
theorem timerManager_keeps_agenda_one_left :
    ∃ (trace : List (Action Unit Unit × Outcome Unit Unit)) (final : TimerManager Unit Unit),
      Run step Guard init trace final ∧ final.getNextTimer 100 = 50 ∧
        (ofTrace trace).Waits 100 50 ∧ ¬ ∀ timer, ofTrace trace timer = none := by
  have hempty : Run step Guard (init : TimerManager Unit Unit) [] init := Run.nil
  have hfirst := hempty.snoc (show Guard _ (.addTimer 1 50 (some ()) false 100) from
    List.not_mem_nil) rfl
  have hsecond := hfirst.snoc (show Guard _ (.addTimer 2 10 (some ()) true 100) from
    (show (2 : Address) ∉ [1] by decide)) rfl
  have hthird := hsecond.snoc (show Guard _ (.cancel 2) from
    (show (2 : Address) ∈ [2, 1] by decide)) rfl
  obtain ⟨-, -, hwaits, hnothing⟩ := timerManager_keeps_agenda hthird
  exact ⟨_, _, hthird, by decide, hwaits 100, fun h ↦ absurd (hnothing.mpr h) (by decide)⟩

end TimerManager

end Cczoe.Timers
