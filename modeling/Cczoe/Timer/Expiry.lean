import Cczoe.Timer.TimerEffects

/-!
# What one call of `getExpiredCb` does

`due` are the timers of the set whose deadline has come, `later` the others. `lower_bound` is asked
for a temporary timer with the clock reading as its deadline, which lies among the timers with this
deadline wherever its address puts it; the scan that follows makes up for it, so a call takes out
exactly the timers that are due (`getExpiredCb_eq`). `Expired` says what a call returns and leaves,
and `getExpiredCb_expired` that every call on a set in order does so.
-/

set_option autoImplicit false
set_option relaxedAutoImplicit false

namespace Cczoe.Timers.TimerManager

open Cczoe.Foundations

variable {γ κ : Type}

/-- The timers of the set whose deadline has come. -/
def due (s : TimerManager γ κ) (now : UInt64) : List Address :=
  s.timers.filter fun timer ↦ (s.memory timer).next ≤ now

/-- The timers of the set whose deadline is yet to come. -/
def later (s : TimerManager γ κ) (now : UInt64) : List Address :=
  s.timers.filter fun timer ↦ now < (s.memory timer).next

/-- What a call at `now` returns and the manager it leaves: the callbacks of the timers that are
due, in the order of the set. Those that recur are in the set again with a new deadline, the others
have left it. -/
structure Expired (s : TimerManager γ κ) (now : UInt64) (cbs : List (Option (Callback γ κ)))
    (after : TimerManager γ κ) : Prop where
  callbacks : cbs = (s.due now).map fun timer ↦ (s.memory timer).cb
  sorted : Increasing (deadline s.memory) (s.due now)
  ordered : Increasing (deadline after.memory) after.timers
  kept : ∀ timer ∈ s.timers, now < (s.memory timer).next →
    timer ∈ after.timers ∧ after.memory timer = s.memory timer
  recurring : ∀ timer ∈ s.timers, (s.memory timer).next ≤ now →
    (s.memory timer).recurring = true → after.timers.count timer = 1 ∧
      after.memory timer = { s.memory timer with next := now + (s.memory timer).ms }
  oneShot : ∀ timer ∈ s.timers, (s.memory timer).next ≤ now →
    (s.memory timer).recurring = false → timer ∉ after.timers ∧
      after.memory timer = { s.memory timer with cb := none }
  others : ∀ timer ∉ s.timers, timer ∉ after.timers ∧ after.memory timer = s.memory timer

variable {s : TimerManager γ κ} {timer probe : Address} {now : UInt64}

theorem mem_due : timer ∈ s.due now ↔ timer ∈ s.timers ∧ (s.memory timer).next ≤ now := by
  rw [due, List.mem_filter, decide_eq_true_iff]

theorem mem_later : timer ∈ s.later now ↔ timer ∈ s.timers ∧ now < (s.memory timer).next := by
  rw [later, List.mem_filter, decide_eq_true_iff]

/-- Assumes: the set is in order and does not hold the timer that the search is made with. What is
left in it is not due. -/
theorem left_not_due (hordered : Increasing (deadline s.memory) s.timers)
    (hprobe : probe ∉ s.timers) (hmem : timer ∈ s.timers.drop (s.expiredEnd probe now)) :
    now < (s.memory timer).next := by
  obtain ⟨memory, hmemory⟩ :
      ∃ memory, memory = Function.update s.memory probe { next := now } := ⟨_, rfl⟩
  have hsame : memory timer = s.memory timer := by
    have hne : timer ≠ probe := fun heq ↦ hprobe (heq ▸ List.mem_of_mem_drop hmem)
    rw [hmemory, Function.update_of_ne hne]
  have hprobed : (memory probe).next = now := by rw [hmemory, Function.update_self]
  have hincreasing : Increasing (deadline memory) s.timers :=
    hmemory ▸ increasing_update hordered hprobe _
  obtain ⟨above, habove⟩ :
      ∃ above, above = OrderedSet.above (less memory) probe s.timers := ⟨_, rfl⟩
  have hsorted : Increasing (deadline memory) above :=
    habove ▸ List.Pairwise.sublist (List.dropWhile_sublist _) hincreasing
  have hreached : ∀ other ∈ above, now ≤ (memory other).next := by
    intro other hother
    rw [habove] at hother
    exact hprobed ▸ next_le_of_deadline_le (hincreasing.rank_le_of_mem_above less_iff hother)
  rw [(expiredEnd_split hmemory).2, ← habove] at hmem
  have hnot : ¬ ((memory timer).next == now) = true := by
    refine hsorted.not_of_mem_dropWhile (p := fun timer ↦ (memory timer).next == now) ?_ hmem
    intro first hfirst second _ hlt hnow
    have hle : (memory first).next ≤ now :=
      eq_of_beq hnow ▸ next_le_of_deadline_le (le_of_lt hlt)
    exact beq_iff_eq.mpr (UInt64.le_antisymm hle (hreached first hfirst))
  have hle : now ≤ (memory timer).next :=
    hreached timer ((List.dropWhile_sublist _).subset hmem)
  rw [← hsame]
  exact UInt64.lt_of_le_of_ne hle fun heq ↦ hnot (beq_iff_eq.mpr heq.symm)

/-- Assumes: the set is in order and does not hold the timer that the search is made with. The
search splits the set into the timers that are due and the others, whatever its address. -/
theorem expiredEnd_due (hordered : Increasing (deadline s.memory) s.timers)
    (hprobe : probe ∉ s.timers) (now : UInt64) :
    s.timers.take (s.expiredEnd probe now) = s.due now ∧
      s.timers.drop (s.expiredEnd probe now) = s.later now := by
  have hsplit := List.take_append_drop (s.expiredEnd probe now) s.timers
  have htaken : ∀ timer ∈ s.timers.take (s.expiredEnd probe now), (s.memory timer).next ≤ now :=
    fun _ hmem ↦ expired_due hprobe hmem
  have hleft : ∀ timer ∈ s.timers.drop (s.expiredEnd probe now), now < (s.memory timer).next :=
    fun _ hmem ↦ left_not_due hordered hprobe hmem
  constructor
  · have hkept : (s.timers.take (s.expiredEnd probe now)).filter
        (fun timer ↦ (s.memory timer).next ≤ now) = s.timers.take (s.expiredEnd probe now) :=
      List.filter_eq_self.mpr fun timer hmem ↦ decide_eq_true (htaken timer hmem)
    have hremoved : (s.timers.drop (s.expiredEnd probe now)).filter
        (fun timer ↦ (s.memory timer).next ≤ now) = [] := by
      refine List.filter_eq_nil_iff.mpr fun timer hmem ↦ ?_
      rw [decide_eq_true_iff]
      exact UInt64.not_le.mpr (hleft timer hmem)
    rw [due, ← hsplit, List.filter_append, hsplit, hkept, hremoved, List.append_nil]
  · have hkept : (s.timers.drop (s.expiredEnd probe now)).filter
        (fun timer ↦ now < (s.memory timer).next) = s.timers.drop (s.expiredEnd probe now) :=
      List.filter_eq_self.mpr fun timer hmem ↦ decide_eq_true (hleft timer hmem)
    have hremoved : (s.timers.take (s.expiredEnd probe now)).filter
        (fun timer ↦ now < (s.memory timer).next) = [] := by
      refine List.filter_eq_nil_iff.mpr fun timer hmem ↦ ?_
      rw [decide_eq_true_iff]
      exact UInt64.not_lt.mpr (htaken timer hmem)
    rw [later, ← hsplit, List.filter_append, hsplit, hkept, hremoved, List.nil_append]

/-- Assumes: the set is in order and does not hold the timer that the search is made with. The loop
runs over the timers that are due, with the others in the set. -/
theorem getExpiredCb_eq (hordered : Increasing (deadline s.memory) s.timers)
    (hprobe : probe ∉ s.timers) :
    s.getExpiredCb probe now =
      { s with timers := s.later now }.expireAll now (s.due now) := by
  rw [getExpiredCb]
  by_cases hempty : s.timers.isEmpty = true
  · have hnil : s.timers = [] := List.isEmpty_iff.mp hempty
    rw [if_pos hempty, due, later, hnil]
    show _ = ([], { s with timers := [] })
    rw [← hnil]
  · obtain ⟨htake, hdrop⟩ := expiredEnd_due hordered hprobe now
    rw [if_neg hempty]
    simp only [htake, hdrop]

/-- Assumes: the timers that the loop looks at are distinct. Each is changed as in its own turn. -/
theorem expireAll_memory_of_mem {pending : List Address} (hdistinct : pending.Nodup)
    (hmem : timer ∈ pending) :
    (s.expireAll now pending).2.memory timer = (s.expire timer now).memory timer := by
  induction pending generalizing s with
  | nil => exact absurd hmem List.not_mem_nil
  | cons first rest ih =>
    obtain ⟨hfirst, hrest⟩ := List.nodup_cons.mp hdistinct
    rw [expireAll]
    by_cases hsame : timer = first
    · rw [hsame]
      exact expireAll_memory_of_notMem hfirst
    · have hkept : (s.expire first now).memory timer = s.memory timer :=
        expire_memory_of_ne hsame
      refine (ih hrest (List.mem_of_ne_of_mem hsame hmem)).trans ?_
      rw [expire_memory_self, hkept, expire_memory_self]

/-- Assumes: the set is in order. The timers that are due are taken out of it. -/
theorem taken_due (hordered : Increasing (deadline s.memory) s.timers) :
    Taken (s.due now) { s with timers := s.later now } := by
  refine ⟨List.Pairwise.sublist List.filter_sublist hordered, hordered.nodup.filter _, ?_⟩
  intro timer hdue hlater
  exact UInt64.not_le.mpr (mem_later.mp hlater).2 (mem_due.mp hdue).2

/-- Assumes: the set is in order. The loop over the timers that are due. -/
theorem expireAll_expired (hordered : Increasing (deadline s.memory) s.timers) :
    Expired s now ({ s with timers := s.later now }.expireAll now (s.due now)).1
      ({ s with timers := s.later now }.expireAll now (s.due now)).2 := by
  have htaken : Taken (s.due now) { s with timers := s.later now } := taken_due hordered
  have hsorted := htaken.ordered_expireAll now
  have hchanged : ∀ timer ∈ s.timers, (s.memory timer).next ≤ now →
      ({ s with timers := s.later now }.expireAll now (s.due now)).2.memory timer =
        if (s.memory timer).recurring then
          { s.memory timer with next := now + (s.memory timer).ms }
        else { s.memory timer with cb := none } := by
    intro timer hmem hdue
    rw [expireAll_memory_of_mem htaken.distinct (mem_due.mpr ⟨hmem, hdue⟩), expire_memory_self]
  refine ⟨expireAll_callbacks htaken.distinct, List.Pairwise.sublist List.filter_sublist hordered,
    hsorted, ?_, ?_, ?_, ?_⟩
  · intro timer hmem hlater
    refine ⟨htaken.mem_expireAll.mpr (Or.inl (mem_later.mpr ⟨hmem, hlater⟩)), ?_⟩
    exact expireAll_memory_of_notMem fun hdue ↦ UInt64.not_le.mpr hlater (mem_due.mp hdue).2
  · intro timer hmem hdue hrecurring
    constructor
    · rw [hsorted.nodup.count, if_pos]
      exact htaken.mem_expireAll.mpr (Or.inr ⟨mem_due.mpr ⟨hmem, hdue⟩, hrecurring⟩)
    · rw [hchanged timer hmem hdue, if_pos hrecurring]
  · intro timer hmem hdue honce
    have hnot : ¬ (s.memory timer).recurring = true := Bool.eq_false_iff.mp honce
    constructor
    · intro hin
      rcases htaken.mem_expireAll.mp hin with hlater | ⟨-, hrecurring⟩
      · exact UInt64.not_le.mpr (mem_later.mp hlater).2 hdue
      · exact hnot hrecurring
    · rw [hchanged timer hmem hdue, if_neg hnot]
  · intro timer hmem
    constructor
    · intro hin
      rcases htaken.mem_expireAll.mp hin with hlater | ⟨hdue, -⟩
      · exact hmem (mem_later.mp hlater).1
      · exact hmem (mem_due.mp hdue).1
    · exact expireAll_memory_of_notMem fun hdue ↦ hmem (mem_due.mp hdue).1

/-- Assumes: a call as `Expired` says. A timer that is in the set afterwards was there before and
has its callback. -/
theorem Expired.cb_of_mem {cbs : List (Option (Callback γ κ))} {after : TimerManager γ κ}
    (hcall : Expired s now cbs after) (hmem : timer ∈ after.timers) :
    timer ∈ s.timers ∧ (after.memory timer).cb = (s.memory timer).cb := by
  have hbefore : timer ∈ s.timers := by
    by_contra hnot
    exact (hcall.others timer hnot).1 hmem
  refine ⟨hbefore, ?_⟩
  by_cases hlater : now < (s.memory timer).next
  · rw [(hcall.kept timer hbefore hlater).2]
  · have hdue : (s.memory timer).next ≤ now := UInt64.not_lt.mp hlater
    cases hrecurring : (s.memory timer).recurring with
    | true => rw [(hcall.recurring timer hbefore hdue hrecurring).2]
    | false => exact absurd hmem (hcall.oneShot timer hbefore hdue hrecurring).1

/-- Assumes: the set is in order, and the timer that the search is made with, like every timer that
`new` returns, is not in it. The call returns the callbacks of the timers that are due and leaves
the set as `Expired` says. It makes no difference where in memory the search timer lies. -/
theorem getExpiredCb_expired (hordered : Increasing (deadline s.memory) s.timers)
    (hprobe : probe ∉ s.timers) (now : UInt64) :
    Expired s now (s.getExpiredCb probe now).1 (s.getExpiredCb probe now).2 ∧
      ∀ other ∉ s.timers, s.getExpiredCb other now = s.getExpiredCb probe now := by
  constructor
  · rw [getExpiredCb_eq hordered hprobe]
    exact expireAll_expired hordered
  · intro other hother
    rw [getExpiredCb_eq hordered hother, getExpiredCb_eq hordered hprobe]

/-- Three timers of which two are due at 100, searched with a timer between them: the first recurs
with an interval of 0. -/
theorem getExpiredCb_expired_two_of_three :
    ∃ s : TimerManager ℕ Unit, s.timers = [2, 4, 1] ∧
      (s.getExpiredCb 3 100).1 = [some (.given 20), some (.given 40)] ∧
      (s.getExpiredCb 3 100).2.timers = [2, 1] ∧
      Expired s 100 (s.getExpiredCb 3 100).1 (s.getExpiredCb 3 100).2 ∧
      s.getExpiredCb 7 100 = s.getExpiredCb 3 100 := by
  obtain ⟨memory, hmemory⟩ : ∃ memory : Address → Timer ℕ Unit, memory = fun address ↦
      if address = 2 then ⟨true, 0, 100, some (.given 20)⟩
      else if address = 4 then ⟨false, 5, 100, some (.given 40)⟩
      else ⟨false, 30, 150, some (.given 10)⟩ := ⟨_, rfl⟩
  have hordered : Increasing (deadline memory) [2, 4, 1] := by
    subst hmemory
    rw [Increasing]
    decide
  have hnot : ∀ address ∈ [3, 7], address ∉ [2, 4, 1] := by decide
  have hcall := getExpiredCb_expired (s := ⟨memory, [2, 4, 1], [2, 4, 1]⟩) hordered
    (hnot 3 (by decide)) 100
  refine ⟨⟨memory, [2, 4, 1], [2, 4, 1]⟩, rfl, ?_, ?_, hcall.1, hcall.2 7 (hnot 7 (by decide))⟩
  · subst hmemory
    decide
  · subst hmemory
    decide

end Cczoe.Timers.TimerManager
