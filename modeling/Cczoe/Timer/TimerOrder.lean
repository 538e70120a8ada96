import Cczoe.Foundations.GuardedRuns
import Cczoe.Timer.TimerManager

/-!
# The order of the timer set

`m_timers` is ordered by a field of the timers themselves. `Consistent` says that the set is in
order, holds live timers only and holds every live timer that has a callback. Each operation takes a
timer out of the set before it changes the deadline, so that `insert_updated` applies when it is put
back; `Expiring` is the invariant of the loop of `getExpiredCb`, which holds timers that are in no
set. `timers_ordered_in_every_run` draws the conclusion for whole runs: no operation that can be
called erases `end()`.
-/

set_option autoImplicit false
set_option relaxedAutoImplicit false

namespace Cczoe.Timers

open Cczoe.Foundations

variable {γ κ : Type}

section Order

variable {memory : Address → Timer γ κ} {timers : List Address} {address : Address}

/-- The comparison of two timers is the order of their ranks. -/
theorem less_iff (lhs rhs : Address) :
    less memory lhs rhs = true ↔ deadline memory lhs < deadline memory rhs := by
  rw [less, comparator, deadline, deadline, Prod.Lex.toLex_lt_toLex]
  by_cases hlt : (memory lhs).next < (memory rhs).next
  · rw [if_pos hlt]
    exact iff_of_true rfl (Or.inl (UInt64.lt_iff_toNat_lt.mp hlt))
  · by_cases hgt : (memory lhs).next > (memory rhs).next
    · rw [if_neg hlt, if_pos hgt]
      have hnat : (memory rhs).next.toNat < (memory lhs).next.toNat := UInt64.lt_iff_toNat_lt.mp hgt
      refine iff_of_false Bool.false_ne_true ?_
      rintro (hless | ⟨hsame, -⟩)
      · exact absurd hless (Nat.lt_asymm hnat)
      · exact absurd hsame (Nat.ne_of_gt hnat)
    · rw [if_neg hlt, if_neg hgt, decide_eq_true_iff]
      have hsame : (memory lhs).next.toNat = (memory rhs).next.toNat :=
        Nat.le_antisymm (UInt64.le_iff_toNat_le.mp (UInt64.not_lt.mp hgt))
          (UInt64.le_iff_toNat_le.mp (UInt64.not_lt.mp hlt))
      constructor
      · intro haddress
        exact Or.inr ⟨hsame, haddress⟩
      · rintro (hless | ⟨-, haddress⟩)
        · exact absurd hsame (Nat.ne_of_lt hless)
        · exact haddress

/-- A timer of a lower rank has no later deadline. -/
theorem next_le_of_deadline_le {first second : Address}
    (hle : deadline memory first ≤ deadline memory second) :
    (memory first).next ≤ (memory second).next := by
  rw [deadline, deadline, Prod.Lex.toLex_le_toLex] at hle
  rw [UInt64.le_iff_toNat_le]
  rcases hle with hless | ⟨hsame, -⟩
  · exact Nat.le_of_lt hless
  · exact Nat.le_of_eq hsame

/-- Two timers never have one rank. -/
theorem deadline_ne {first second : Address} (hne : first ≠ second) :
    deadline memory first ≠ deadline memory second := by
  intro hsame
  exact hne (Prod.ext_iff.mp (toLex.injective hsame)).2

/-- A change at one address does not touch the rank of another timer. -/
theorem deadline_update_of_ne (value : Timer γ κ) {timer : Address} (hne : timer ≠ address) :
    deadline (Function.update memory address value) timer = deadline memory timer := by
  rw [deadline, deadline, Function.update_of_ne hne]

/-- Assumes: the set is in order and does not hold the timer. The set stays in order when the timer
changes. -/
theorem increasing_update (hinc : Increasing (deadline memory) timers) (hnot : address ∉ timers)
    (value : Timer γ κ) :
    Increasing (deadline (Function.update memory address value)) timers := by
  refine hinc.congr ?_
  intro timer hmem
  exact deadline_update_of_ne value fun hsame ↦ hnot (hsame ▸ hmem)

/-- Assumes: the set is in order and does not hold the timer. After any change of the timer it can
be inserted. -/
theorem insert_updated (hinc : Increasing (deadline memory) timers) (hnot : address ∉ timers)
    (value : Timer γ κ) :
    Increasing (deadline (Function.update memory address value))
        (OrderedSet.insert (less (Function.update memory address value)) address timers).1 ∧
      (OrderedSet.insert (less (Function.update memory address value)) address timers).1.Perm
        (address :: timers) := by
  refine ((increasing_update hinc hnot value).insert_of_fresh less_iff ?_).2
  intro timer hmem
  exact deadline_ne fun hsame ↦ hnot (hsame ▸ hmem)

/-- The callback has no part in the rank. -/
theorem deadline_clear (timer : Address) :
    deadline (Function.update memory timer { memory timer with cb := none }) = deadline memory := by
  funext other
  by_cases hsame : other = timer
  · rw [hsame, deadline, deadline, Function.update_self]
  · exact deadline_update_of_ne _ hsame

end Order

namespace TimerManager

/-- The set is in order, holds live timers only, and holds every live timer with a callback. -/
structure Consistent (s : TimerManager γ κ) : Prop where
  ordered : Increasing (deadline s.memory) s.timers
  tracked : ∀ timer ∈ s.timers, timer ∈ s.live
  armed : ∀ timer ∈ s.live, (s.memory timer).cb.isSome → timer ∈ s.timers

variable {s : TimerManager γ κ} {timer : Address}

theorem consistent_init : (init : TimerManager γ κ).Consistent :=
  ⟨List.Pairwise.nil, fun _ hmem ↦ absurd hmem List.not_mem_nil,
    fun _ hmem ↦ absurd hmem List.not_mem_nil⟩

/-- Clearing a callback keeps the set as it is. -/
theorem Consistent.clear (hs : s.Consistent) (timer : Address) :
    (s.store timer { s.memory timer with cb := none }).Consistent where
  ordered := by
    have hsame : deadline (Function.update s.memory timer { s.memory timer with cb := none }) =
        deadline s.memory := deadline_clear timer
    exact hsame ▸ hs.ordered
  tracked := hs.tracked
  armed := by
    intro other hlive hcb
    by_cases hsame : other = timer
    · rw [hsame, store_memory_self] at hcb
      exact absurd hcb Bool.false_ne_true
    · rw [store_memory_of_ne _ _ hsame] at hcb
      exact hs.armed other hlive hcb

/-- A timer in the set is found, and taking it out leaves the others in order. -/
theorem Consistent.find_of_mem (hs : s.Consistent) (hmem : timer ∈ s.timers) :
    s.find timer < s.timers.length ∧
      Increasing (deadline s.memory) (s.erase (s.find timer)).timers ∧
      ∀ other, other ∈ (s.erase (s.find timer)).timers ↔ other ∈ s.timers ∧ other ≠ timer :=
  hs.ordered.find_of_mem less_iff hmem

/-- Assumes: the timer is in the set and has no callback. The set is consistent without it. -/
theorem Consistent.erase (hs : s.Consistent) (hmem : timer ∈ s.timers)
    (hcb : (s.memory timer).cb = none) : (s.erase (s.find timer)).Consistent := by
  obtain ⟨-, hordered, hothers⟩ := hs.find_of_mem hmem
  refine ⟨hordered, ?_, ?_⟩
  · intro other hother
    exact hs.tracked other ((hothers other).mp hother).1
  · intro other hlive harmed
    refine (hothers other).mpr ⟨hs.armed other hlive harmed, ?_⟩
    intro hsame
    have hsome : (s.memory timer).cb.isSome := hsame ▸ harmed
    rw [hcb] at hsome
    exact absurd hsome Bool.false_ne_true

/-- Assumes: the set without the timer is in order and the manager is consistent but for the timer.
Inserting it after any change makes the manager consistent. -/
theorem consistent_insert (hordered : Increasing (deadline s.memory) s.timers)
    (hnot : timer ∉ s.timers) (htracked : ∀ other ∈ s.timers, other ∈ s.live)
    (hlive : timer ∈ s.live)
    (harmed : ∀ other ∈ s.live, other ≠ timer → (s.memory other).cb.isSome → other ∈ s.timers)
    (value : Timer γ κ) : ((s.store timer value).insert timer).Consistent := by
  obtain ⟨hincreasing, hperm⟩ := insert_updated hordered hnot value
  refine ⟨hincreasing, ?_, ?_⟩
  · intro other hother
    rcases List.mem_cons.mp (hperm.mem_iff.mp hother) with hsame | hold
    · exact hsame ▸ hlive
    · exact htracked other hold
  · intro other hother hcb
    refine hperm.mem_iff.mpr ?_
    by_cases hsame : other = timer
    · exact hsame ▸ List.mem_cons_self
    · refine List.mem_cons_of_mem _ (harmed other hother hsame ?_)
      have hkept : ((s.store timer value).memory other).cb.isSome := hcb
      rwa [store_memory_of_ne _ _ hsame] at hkept

/-- A timer is taken out of the set, changed and put back. -/
theorem Consistent.reinsert (hs : s.Consistent) (hmem : timer ∈ s.timers) (value : Timer γ κ) :
    (((s.erase (s.find timer)).store timer value).insert timer).Consistent := by
  obtain ⟨-, hordered, hothers⟩ := hs.find_of_mem hmem
  refine consistent_insert (s := s.erase (s.find timer)) hordered ?_ ?_
    (hs.tracked timer hmem) ?_ value
  · intro hin
    exact ((hothers timer).mp hin).2 rfl
  · intro other hother
    exact hs.tracked other ((hothers other).mp hother).1
  · intro other hlive hne hcb
    exact (hothers other).mpr ⟨hs.armed other hlive hcb, hne⟩

/-- A timer is in the set once with other fields, and all other timers are as before. -/
structure Replaced (s : TimerManager γ κ) (timer : Address) (value : Timer γ κ)
    (after : TimerManager γ κ) : Prop where
  once : after.timers.count timer = 1
  value : after.memory timer = value
  others : ∀ other, other ≠ timer →
    (other ∈ after.timers ↔ other ∈ s.timers) ∧ after.memory other = s.memory other

/-- A timer is taken out of the set, changed and put back. -/
theorem Consistent.replaced (hs : s.Consistent) (hmem : timer ∈ s.timers) (value : Timer γ κ) :
    Replaced s timer value (((s.erase (s.find timer)).store timer value).insert timer) := by
  obtain ⟨-, hordered, hothers⟩ := hs.find_of_mem hmem
  have hnot : timer ∉ (s.erase (s.find timer)).timers := fun hin ↦ ((hothers timer).mp hin).2 rfl
  obtain ⟨hincreasing, hperm⟩ := insert_updated hordered hnot value
  refine ⟨?_, store_memory_self .., ?_⟩
  · have hback := hperm.mem_iff.mpr (List.mem_cons_self (a := timer))
    exact hincreasing.nodup.count.trans (if_pos hback)
  · intro other hne
    refine ⟨(hperm.mem_iff (a := other)).trans ?_, store_memory_of_ne _ _ hne⟩
    rw [List.mem_cons, hothers other]
    constructor
    · rintro (hsame | ⟨hin, -⟩)
      · exact absurd hsame hne
      · exact hin
    · intro hin
      exact Or.inr ⟨hin, hne⟩

/-- Assumes: a timer is taken out of the set, changed and put back. It is put back at the front
exactly when no timer is before it. -/
theorem Consistent.replaced_atFront (hs : s.Consistent) (hmem : timer ∈ s.timers)
    (value : Timer γ κ) :
    (((s.erase (s.find timer)).store timer value).addTimerPtr timer).1 = true ↔
      ∀ other ∈ (((s.erase (s.find timer)).store timer value).insert timer).timers,
        deadline (Function.update s.memory timer value) timer ≤
          deadline (Function.update s.memory timer value) other := by
  obtain ⟨-, hordered, hothers⟩ := hs.find_of_mem hmem
  have hnot : timer ∉ (s.erase (s.find timer)).timers := fun hin ↦ ((hothers timer).mp hin).2 rfl
  have hupdated := increasing_update hordered hnot value
  have hne : ∀ other ∈ (s.erase (s.find timer)).timers, other ≠ timer := fun other hin ↦
    ((hothers other).mp hin).2
  have hfresh : ∀ other ∈ (s.erase (s.find timer)).timers,
      deadline (Function.update s.memory timer value) other ≠
        deadline (Function.update s.memory timer value) timer := fun other hin ↦
    deadline_ne (hne other hin)
  have hnew := (hupdated.insert_of_fresh less_iff hfresh).1
  have hposition := hupdated.insert_position_eq_zero_iff less_iff hfresh
  obtain ⟨-, hperm⟩ := insert_updated hordered hnot value
  have hfront : (((s.erase (s.find timer)).store timer value).addTimerPtr timer).1 = true ↔
      (OrderedSet.insert (less (Function.update s.memory timer value)) timer
        (s.erase (s.find timer)).timers).2.1 = 0 := by
    rw [addTimerPtr]
    simp only [store_timers]
    rw [Bool.and_eq_true, beq_iff_eq]
    exact and_iff_right hnew
  rw [hfront, hposition]
  constructor
  · intro hlowest other hin
    rcases List.mem_cons.mp (hperm.mem_iff.mp hin) with hsame | hold
    · rw [hsame]
    · exact le_of_lt (hlowest other hold)
  · intro hlowest other hin
    have hback := hperm.mem_iff.mpr (List.mem_cons_of_mem timer hin)
    exact lt_of_le_of_ne (hlowest other hback) (hfresh other hin).symm

/-- Assumes: the memory at the address is free. -/
theorem Consistent.addTimer (hs : s.Consistent) {address : Address} (hfree : address ∉ s.live)
    (ms : UInt64) (cb : Option (Callback γ κ)) (recurring : Bool) (now : UInt64) :
    (s.addTimer address ms cb recurring now).2.Consistent := by
  have hnot : address ∉ s.timers := fun hmem ↦ hfree (hs.tracked address hmem)
  refine consistent_insert (s := { s with live := address :: s.live }) hs.ordered hnot ?_
    List.mem_cons_self ?_ _
  · intro other hother
    exact List.mem_cons_of_mem _ (hs.tracked other hother)
  · intro other hother hne hcb
    exact hs.armed other (List.mem_of_ne_of_mem hne hother) hcb

/-- Assumes: the memory at the address is free and the new timer is due before all others.
`addTimer` calls `onTimerInsertedAtFront`. -/
theorem Consistent.addTimer_atFront (hs : s.Consistent) {address : Address}
    (hfree : address ∉ s.live) (ms : UInt64) (cb : Option (Callback γ κ)) (recurring : Bool)
    (now : UInt64)
    (hearliest : ∀ timer ∈ s.timers, (now + ms).toNat < (s.memory timer).next.toNat) :
    (s.addTimer address ms cb recurring now).1 = true := by
  obtain ⟨value, hvalue⟩ : ∃ value : Timer γ κ, value = ⟨recurring, ms, now + ms, cb⟩ := ⟨_, rfl⟩
  have hlowest : ∀ timer ∈ s.timers, deadline (Function.update s.memory address value) address <
      deadline (Function.update s.memory address value) timer := by
    intro timer hmem
    have hne : timer ≠ address := fun hsame ↦ hfree (hs.tracked address (hsame ▸ hmem))
    rw [deadline_update_of_ne _ hne, deadline, deadline, Function.update_self, hvalue,
      Prod.Lex.toLex_lt_toLex]
    exact Or.inl (hearliest timer hmem)
  have hfront : OrderedSet.insert (less (Function.update s.memory address value)) address s.timers =
      (address :: s.timers, 0, true) := Increasing.insert_front less_iff hlowest
  rw [hvalue] at hfront
  rw [TimerManager.addTimer, addTimerPtr]
  simp only [store_timers]
  exact (congrArg (fun it ↦ it.2.2 && it.2.1 == 0) hfront).trans rfl

/-- Assumes: the timer is live. `cancel` returns. -/
theorem Consistent.cancel (hs : s.Consistent) (hlive : timer ∈ s.live) :
    ∃ done next, s.cancel timer = .ok (done, next) ∧ next.Consistent := by
  by_cases hcb : (s.memory timer).cb.isSome
  · have hmem : timer ∈ s.timers := hs.armed timer hlive hcb
    have hcleared := hs.clear timer
    have hnone : ((s.store timer { s.memory timer with cb := none }).memory timer).cb = none := by
      rw [store_memory_self]
    refine ⟨true, _, ?_, hcleared.erase hmem hnone⟩
    rw [TimerManager.cancel, if_pos hcb, if_pos (hcleared.find_of_mem hmem).1]
  · exact ⟨false, s, by rw [TimerManager.cancel, if_neg hcb], hs⟩

theorem Consistent.reset (hs : s.Consistent) (hlive : timer ∈ s.live) (ms : UInt64)
    (fromNow : Bool) (now : UInt64) : (s.reset timer ms fromNow now).2.2.Consistent := by
  by_cases hcb : (s.memory timer).cb.isSome
  · have hmem : timer ∈ s.timers := hs.armed timer hlive hcb
    have hfound : s.find timer ≠ s.timers.length := Nat.ne_of_lt (hs.find_of_mem hmem).1
    rw [TimerManager.reset, if_pos hcb, if_pos hfound]
    exact hs.reinsert hmem _
  · rw [TimerManager.reset, if_neg hcb]
    exact hs

theorem Consistent.refresh (hs : s.Consistent) (hlive : timer ∈ s.live) (now : UInt64) :
    (s.refresh timer now).2.Consistent := by
  by_cases hcb : (s.memory timer).cb.isSome
  · have hmem : timer ∈ s.timers := hs.armed timer hlive hcb
    have hcleared := hs.clear timer
    have hfound := Nat.ne_of_lt (hcleared.find_of_mem hmem).1
    rw [TimerManager.refresh, if_pos hcb, if_pos hfound]
    exact hcleared.reinsert hmem _
  · rw [TimerManager.refresh, if_neg hcb]
    exact hs

/-- The body of the loop of `getExpiredCb` touches one timer. -/
theorem expire_memory_of_ne {first : Address} {now : UInt64} (hne : timer ≠ first) :
    (s.expire first now).memory timer = s.memory timer := by
  rw [expire]
  split_ifs
  · exact store_memory_of_ne _ _ hne
  · exact store_memory_of_ne _ _ hne

/-- A timer of the loop gets a new deadline, or loses its callback. -/
theorem expire_memory_self (s : TimerManager γ κ) (timer : Address) (now : UInt64) :
    (s.expire timer now).memory timer =
      if (s.memory timer).recurring then
        { s.memory timer with next := now + (s.memory timer).ms }
      else { s.memory timer with cb := none } := by
  rw [expire]
  split_ifs
  · exact store_memory_self ..
  · exact store_memory_self ..

theorem expire_live (s : TimerManager γ κ) (timer : Address) (now : UInt64) :
    (s.expire timer now).live = s.live := by
  rw [expire]
  split_ifs
  · rfl
  · rfl

/-- The timers that the loop of `getExpiredCb` still has to look at are not in the set, which is in
order. -/
structure Taken (pending : List Address) (s : TimerManager γ κ) : Prop where
  ordered : Increasing (deadline s.memory) s.timers
  distinct : pending.Nodup
  apart : ∀ timer ∈ pending, timer ∉ s.timers

/-- Assumes: the set is in order. The timers up to a position are taken out of it. -/
theorem taken_of_ordered (hordered : Increasing (deadline s.memory) s.timers) (it : ℕ) :
    Taken (s.timers.take it) { s with timers := s.timers.drop it } := by
  have hnodup : (s.timers.take it ++ s.timers.drop it).Nodup :=
    (List.take_append_drop it s.timers).symm ▸ hordered.nodup
  refine ⟨List.Pairwise.sublist (List.drop_sublist _ _) hordered, ?_, ?_⟩
  · exact (List.nodup_append.mp hnodup).1
  · intro timer hpending hrest
    exact (List.nodup_append.mp hnodup).2.2 timer hpending timer hrest rfl

/-- One timer of the loop is put into the set if it is recurring. -/
theorem Taken.mem_expire {pending : List Address} (hs : Taken (timer :: pending) s)
    {now : UInt64} {other : Address} :
    other ∈ (s.expire timer now).timers ↔
      other ∈ s.timers ∨ other = timer ∧ (s.memory timer).recurring = true := by
  by_cases hrecurring : (s.memory timer).recurring = true
  · obtain ⟨-, hperm⟩ := insert_updated hs.ordered (hs.apart timer List.mem_cons_self)
      { s.memory timer with next := now + (s.memory timer).ms }
    have hiff : other ∈ (s.expire timer now).timers ↔ other ∈ timer :: s.timers := by
      rw [TimerManager.expire, if_pos hrecurring]
      exact hperm.mem_iff
    rw [hiff, List.mem_cons, or_comm]
    simp only [hrecurring, and_true]
  · rw [TimerManager.expire, if_neg hrecurring]
    simp only [store_timers, hrecurring, Bool.false_eq_true, and_false, or_false]

/-- One timer of the loop. -/
theorem Taken.expire {pending : List Address} (hs : Taken (timer :: pending) s) (now : UInt64) :
    Taken pending (s.expire timer now) := by
  obtain ⟨hfirst, hdistinct⟩ := List.nodup_cons.mp hs.distinct
  have hnot : timer ∉ s.timers := hs.apart timer List.mem_cons_self
  refine ⟨?_, hdistinct, ?_⟩
  · rw [TimerManager.expire]
    split_ifs
    · exact (insert_updated hs.ordered hnot _).1
    · exact increasing_update hs.ordered hnot _
  · intro other hpending hmem
    rcases hs.mem_expire.mp hmem with hold | ⟨hsame, -⟩
    · exact hs.apart other (List.mem_cons_of_mem _ hpending) hold
    · exact hfirst (hsame ▸ hpending)

/-- The whole loop keeps the set in order. -/
theorem Taken.ordered_expireAll {pending : List Address} (hs : Taken pending s) (now : UInt64) :
    Increasing (deadline (s.expireAll now pending).2.memory)
      (s.expireAll now pending).2.timers := by
  induction pending generalizing s with
  | nil => exact hs.ordered
  | cons first rest ih => exact ih (hs.expire now)

/-- The loop of `getExpiredCb` with the timers it still has to look at, which are not in the set. -/
structure Expiring (pending : List Address) (s : TimerManager γ κ) : Prop
    extends Taken pending s where
  tracked : ∀ timer ∈ s.timers, timer ∈ s.live
  held : ∀ timer ∈ pending, timer ∈ s.live
  armed : ∀ timer ∈ s.live, (s.memory timer).cb.isSome → timer ∈ s.timers ∨ timer ∈ pending

/-- The timers up to a position are taken out of the set. -/
theorem Consistent.expiring (hs : s.Consistent) (it : ℕ) :
    Expiring (s.timers.take it) { s with timers := s.timers.drop it } := by
  refine ⟨taken_of_ordered hs.ordered it, ?_, ?_, ?_⟩
  · intro timer hmem
    exact hs.tracked timer (List.mem_of_mem_drop hmem)
  · intro timer hmem
    exact hs.tracked timer (List.mem_of_mem_take hmem)
  · intro timer hlive hcb
    have hmem : timer ∈ s.timers.take it ++ s.timers.drop it :=
      (List.take_append_drop it s.timers).symm ▸ hs.armed timer hlive hcb
    exact (List.mem_append.mp hmem).symm

/-- One timer of the loop: it goes back into the set with a new deadline, or loses its callback. -/
theorem Expiring.expire {pending : List Address} (hs : Expiring (timer :: pending) s)
    (now : UInt64) : Expiring pending (s.expire timer now) := by
  refine ⟨hs.toTaken.expire now, ?_, ?_, ?_⟩
  · intro other hmem
    rw [expire_live]
    rcases hs.mem_expire.mp hmem with hold | ⟨hsame, -⟩
    · exact hs.tracked other hold
    · exact hsame ▸ hs.held timer List.mem_cons_self
  · intro other hmem
    rw [expire_live]
    exact hs.held other (List.mem_cons_of_mem _ hmem)
  · intro other hother hcb
    rw [expire_live] at hother
    by_cases hsame : other = timer
    · -- a timer that is not recurring has lost its callback
      rw [hsame, expire_memory_self] at hcb
      split_ifs at hcb with hrecurring
      · exact Or.inl (hs.mem_expire.mpr (Or.inr ⟨hsame, hrecurring⟩))
      · exact absurd hcb Bool.false_ne_true
    · rw [expire_memory_of_ne hsame] at hcb
      rcases hs.armed other hother hcb with hin | hpending
      · exact Or.inl (hs.mem_expire.mpr (Or.inl hin))
      · exact Or.inr (List.mem_of_ne_of_mem hsame hpending)

/-- The whole loop. -/
theorem Expiring.expireAll (now : UInt64) (pending : List Address) (s : TimerManager γ κ)
    (hs : Expiring pending s) : (s.expireAll now pending).2.Consistent := by
  induction pending generalizing s with
  | nil =>
    refine ⟨hs.ordered, hs.tracked, ?_⟩
    intro timer hlive hcb
    exact (hs.armed timer hlive hcb).resolve_right List.not_mem_nil
  | cons timer rest ih => exact ih _ (hs.expire now)

theorem Consistent.getExpiredCb (hs : s.Consistent) (probe : Address) (now : UInt64) :
    (s.getExpiredCb probe now).2.Consistent := by
  by_cases hempty : s.timers.isEmpty = true
  · rw [TimerManager.getExpiredCb, if_pos hempty]
    exact hs
  · rw [TimerManager.getExpiredCb, if_neg hempty]
    exact (hs.expiring _).expireAll now _ _

/-- Assumes: the set does not hold the timer. The manager stays consistent when it is freed. -/
theorem Consistent.release (hs : s.Consistent) (hnot : timer ∉ s.timers) :
    { s with live := s.live.erase timer }.Consistent := by
  refine ⟨hs.ordered, ?_, ?_⟩
  · intro other hmem
    have hne : other ≠ timer := fun hsame ↦ hnot (hsame ▸ hmem)
    exact (List.mem_erase_of_ne hne).mpr (hs.tracked other hmem)
  · intro other hlive hcb
    exact hs.armed other (List.mem_of_mem_erase hlive) hcb

/-- Assumes: the manager is consistent. Every call that can be made returns, and the manager is
consistent afterwards. -/
theorem Consistent.step (hs : s.Consistent) {action : Action γ κ} (hguard : s.Guard action) :
    ∃ outcome next, TimerManager.step action s = .ok (outcome, next) ∧ next.Consistent := by
  cases action with
  | addTimer address ms cb recurring now => exact ⟨_, _, rfl, hs.addTimer hguard _ _ _ _⟩
  | addConditionTimer address ms cb cond recurring now =>
    exact ⟨_, _, rfl, hs.addTimer hguard _ _ _ _⟩
  | cancel timer =>
    obtain ⟨done, next, hcancel, hnext⟩ := hs.cancel hguard
    refine ⟨.result done false, next, ?_, hnext⟩
    rw [TimerManager.step, hcancel]
    rfl
  | reset timer ms fromNow now => exact ⟨_, _, rfl, hs.reset hguard _ _ _⟩
  | refresh timer now => exact ⟨_, _, rfl, hs.refresh hguard _⟩
  | getExpiredCb probe now => exact ⟨_, _, rfl, hs.getExpiredCb _ _⟩
  | release timer => exact ⟨_, _, rfl, hs.release hguard.2⟩

/-- Every manager that a run reaches is consistent. -/
theorem consistent_of_run {trace : List (Action γ κ × Outcome γ κ)} {final : TimerManager γ κ}
    (hrun : Run TimerManager.step Guard init trace final) : final.Consistent := by
  let reached : List (Action γ κ × Outcome γ κ) → TimerManager γ κ → Prop := fun _ now ↦
    now.Consistent
  have hstart : reached [] init := consistent_init
  refine hrun.history_invariant hstart ?_
  intro trace now action outcome next hnow hguard hstep
  obtain ⟨_, _, hreturned, hnext⟩ := hnow.step hguard
  rw [hstep] at hreturned
  cases hreturned
  exact hnext

/-- Assumes: a run of the operations, with any clock readings. The set is strictly increasing in the
deadline and then the address, holds every timer at most once, and holds every timer that has a
callback; so no call that can be made next, `cancel` in particular, erases `end()`. -/
theorem timers_ordered_in_every_run {trace : List (Action γ κ × Outcome γ κ)}
    {final : TimerManager γ κ} (hrun : Run TimerManager.step Guard init trace final) :
    final.timers.Pairwise (fun first second ↦
        deadline final.memory first < deadline final.memory second) ∧
      final.timers.Nodup ∧
      (∀ timer ∈ final.live, (final.memory timer).cb ≠ none → timer ∈ final.timers) ∧
      ∀ action, final.Guard action → TimerManager.step action final ≠ .error .eraseEnd := by
  have hfinal := consistent_of_run hrun
  refine ⟨hfinal.ordered, hfinal.ordered.nodup, ?_, ?_⟩
  · intro timer hlive hcb
    exact hfinal.armed timer hlive (Option.isSome_iff_ne_none.mpr hcb)
  · intro action hguard hfault
    obtain ⟨_, _, hreturned, -⟩ := hfinal.step hguard
    rw [hfault] at hreturned
    cases hreturned

/-- Two timers, the second of which is due first, can be cancelled. -/
theorem timers_ordered_two_timers :
    ∃ (trace : List (Action Unit Unit × Outcome Unit Unit)) (final : TimerManager Unit Unit),
      Run TimerManager.step Guard init trace final ∧ final.timers = [2, 1] ∧
        final.Guard (.cancel 1) ∧ TimerManager.step (.cancel 1) final ≠ .error .eraseEnd := by
  have hempty : Run TimerManager.step Guard (init : TimerManager Unit Unit) [] init := Run.nil
  have hfirst := hempty.snoc (show Guard _ (.addTimer 1 50 (some ()) false 100) from
    List.not_mem_nil) rfl
  have hsecond := hfirst.snoc (show Guard _ (.addTimer 2 10 (some ()) true 100) from
    (show (2 : Address) ∉ [1] by decide)) rfl
  have hlive : (1 : Address) ∈ [2, 1] := by decide
  exact ⟨_, _, hsecond, by decide, hlive, (timers_ordered_in_every_run hsecond).2.2.2 _ hlive⟩

end TimerManager

end Cczoe.Timers
