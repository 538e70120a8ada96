import Cczoe.Timer.TimerOrder

/-!
# What the operations do to single timers

An operation on a timer leaves the others as they are (`step_frame`, and `step_seen` for what one
timer sees of a step), and a callback that is found in a timer afterwards is the one it had or the
one it was given (`step_cb`). `cancel` takes a timer out of the set and nothing else
(`Consistent.cancel_effect`).

`getExpiredCb` works on many timers. `expired_due` says that every timer it takes out is due; the
callbacks its loop returns are those of the timers taken out (`expireAll_callbacks`), no other timer
is touched (`expireAll_memory_of_notMem`), and of the timers taken out the recurring ones are put
back (`Taken.mem_expireAll`). `Consistent.mem_getExpiredCb` and `Consistent.callback_due` put
this together for one call.
-/

set_option autoImplicit false
set_option relaxedAutoImplicit false

namespace Cczoe.Timers

open Cczoe.Foundations

variable {γ κ : Type}

/-- The timer that an operation works on. -/
def Action.target : Action γ κ → Option Address
  | .addTimer address _ _ _ _ | .addConditionTimer address _ _ _ _ _ => some address
  | .cancel timer | .reset timer _ _ _ | .refresh timer _ | .release timer => some timer
  | .getExpiredCb _ _ => none

/-- Only `getExpiredCb` works on no timer in particular. -/
theorem Action.eq_getExpiredCb {action : Action γ κ} (htarget : action.target = none) :
    ∃ probe now, action = .getExpiredCb probe now := by
  cases action with
  | getExpiredCb probe now => exact ⟨probe, now, rfl⟩
  | _ => cases htarget

/-- The callback that an operation stores. -/
def Action.stored : Action γ κ → Option (Callback γ κ)
  | .addTimer _ _ cb _ _ => cb.map .given
  | .addConditionTimer _ _ cb cond _ _ => some (.conditional cb cond)
  | .cancel _ | .reset _ _ _ _ | .refresh _ _ | .getExpiredCb _ _ | .release _ => none

namespace TimerManager

variable {s : TimerManager γ κ} {timer probe : Address} {now : UInt64}

/-! ### Operations on one timer -/

theorem insert_memory (s : TimerManager γ κ) (timer : Address) :
    (s.insert timer).memory = s.memory := rfl

theorem erase_memory (s : TimerManager γ κ) (position : ℕ) :
    (s.erase position).memory = s.memory := rfl

/-- The timer that `addTimer` makes. -/
theorem addTimer_memory_self (s : TimerManager γ κ) (address : Address) (ms : UInt64)
    (cb : Option (Callback γ κ)) (recurring : Bool) (now : UInt64) :
    (s.addTimer address ms cb recurring now).2.memory address = ⟨recurring, ms, now + ms, cb⟩ :=
  Function.update_self ..

theorem mem_of_mem_erase {position : ℕ} (hmem : timer ∈ (s.erase position).timers) :
    timer ∈ s.timers :=
  List.mem_of_mem_eraseIdx hmem

theorem mem_of_mem_insert {address : Address} (hmem : timer ∈ (s.insert address).timers) :
    timer = address ∨ timer ∈ s.timers :=
  OrderedSet.mem_of_mem_insert hmem

/-- What an operation on one timer leaves alone: no other timer is inserted, changed or freed. -/
structure Frame (s : TimerManager γ κ) (address : Address) (next : TimerManager γ κ) : Prop where
  timers : ∀ timer ∈ next.timers, timer ≠ address → timer ∈ s.timers
  memory : ∀ timer, timer ≠ address → next.memory timer = s.memory timer
  live : ∀ timer ∈ s.live, timer ≠ address → timer ∈ next.live

theorem Frame.refl (s : TimerManager γ κ) (address : Address) : Frame s address s :=
  ⟨fun _ hmem _ ↦ hmem, fun _ _ ↦ rfl, fun _ hmem _ ↦ hmem⟩

theorem addTimer_frame (address : Address) (ms : UInt64) (cb : Option (Callback γ κ))
    (recurring : Bool) : Frame s address (s.addTimer address ms cb recurring now).2 where
  timers := fun _ hmem hne ↦ (mem_of_mem_insert hmem).resolve_left hne
  memory := fun _ hne ↦ Function.update_of_ne hne ..
  live := fun _ hmem _ ↦ List.mem_cons_of_mem _ hmem

/-- What a `cancel` that returns has done. -/
theorem cancel_cases {done : Bool} {next : TimerManager γ κ}
    (hcancel : s.cancel timer = .ok (done, next)) :
    next = s ∨ ∃ position,
      next = (s.store timer { s.memory timer with cb := none }).erase position := by
  rw [cancel] at hcancel
  by_cases hcb : (s.memory timer).cb.isSome
  · rw [if_pos hcb] at hcancel
    simp only at hcancel
    split_ifs at hcancel
    cases hcancel
    exact Or.inr ⟨_, rfl⟩
  · rw [if_neg hcb] at hcancel
    cases hcancel
    exact Or.inl rfl

theorem cancel_frame {done : Bool} {next : TimerManager γ κ}
    (hcancel : s.cancel timer = .ok (done, next)) : Frame s timer next := by
  rcases cancel_cases hcancel with rfl | ⟨position, rfl⟩
  · exact Frame.refl next timer
  · exact ⟨fun _ hmem _ ↦ mem_of_mem_erase hmem, fun _ hne ↦ store_memory_of_ne _ _ hne,
      fun _ hmem _ ↦ hmem⟩

/-- A step that cancels a timer. -/
theorem step_cancel {outcome : Outcome γ κ} {next : TimerManager γ κ}
    (hstep : step (.cancel timer) s = .ok (outcome, next)) :
    ∃ done, s.cancel timer = .ok (done, next) := by
  rw [step] at hstep
  cases hcancel : s.cancel timer with
  | error fault =>
    rw [hcancel] at hstep
    cases hstep
  | ok result =>
    rw [hcancel] at hstep
    cases hstep
    exact ⟨_, rfl⟩

/-- What a `reset` does: nothing, or it puts the timer back with another deadline. -/
theorem reset_cases (s : TimerManager γ κ) (timer : Address) (ms : UInt64) (fromNow : Bool)
    (now : UInt64) :
    (s.reset timer ms fromNow now).2.2 = s ∨ ∃ position next,
      (s.reset timer ms fromNow now).2.2 =
        ((s.erase position).store timer
          { s.memory timer with ms := ms, next := next }).insert timer := by
  rw [reset]
  by_cases hcb : (s.memory timer).cb.isSome
  · rw [if_pos hcb]
    by_cases hfound : s.find timer ≠ s.timers.length
    · simp only [if_pos hfound]
      exact Or.inr ⟨_, _, rfl⟩
    · simp only [if_neg hfound]
      exact Or.inl trivial
  · rw [if_neg hcb]
    exact Or.inl rfl

/-- What a `refresh` does: nothing, or it drops the callback, and it may put the timer back with
another deadline. -/
theorem refresh_cases (s : TimerManager γ κ) (timer : Address) (now : UInt64) :
    (s.refresh timer now).2 = s ∨
    (s.refresh timer now).2 = s.store timer { s.memory timer with cb := none } ∨
    ∃ position next, (s.refresh timer now).2 =
      (((s.store timer { s.memory timer with cb := none }).erase position).store timer
        { s.memory timer with cb := none, next := next }).insert timer := by
  rw [refresh]
  by_cases hcb : (s.memory timer).cb.isSome
  · rw [if_pos hcb]
    simp only [store_memory_self]
    split_ifs
    · exact Or.inr (Or.inr ⟨_, _, rfl⟩)
    · exact Or.inr (Or.inl rfl)
  · rw [if_neg hcb]
    exact Or.inl rfl

/-- Assumes: an operation on one timer. The others are left alone. -/
theorem step_frame {action : Action γ κ} {outcome : Outcome γ κ} {next : TimerManager γ κ}
    {address : Address} (htarget : action.target = some address)
    (hstep : step action s = .ok (outcome, next)) : Frame s address next := by
  cases action with
  | addTimer address ms cb recurring now =>
    cases htarget
    cases hstep
    exact addTimer_frame ..
  | addConditionTimer address ms cb cond recurring now =>
    cases htarget
    cases hstep
    exact addTimer_frame ..
  | cancel timer =>
    cases htarget
    obtain ⟨done, hcancel⟩ := step_cancel hstep
    exact cancel_frame hcancel
  | reset timer ms fromNow now =>
    cases htarget
    cases hstep
    rcases reset_cases s address ms fromNow now with hsame | ⟨position, next, hput⟩
    · rw [hsame]
      exact Frame.refl s address
    · rw [hput]
      refine ⟨?_, fun _ hne ↦ store_memory_of_ne _ _ hne, fun _ hmem _ ↦ hmem⟩
      intro other hmem hne
      exact mem_of_mem_erase ((mem_of_mem_insert hmem).resolve_left hne)
  | refresh timer now =>
    cases htarget
    cases hstep
    rcases refresh_cases s address now with hsame | hcleared | ⟨position, next, hput⟩
    · rw [hsame]
      exact Frame.refl s address
    · rw [hcleared]
      exact ⟨fun _ hmem _ ↦ hmem, fun _ hne ↦ store_memory_of_ne _ _ hne, fun _ hmem _ ↦ hmem⟩
    · rw [hput]
      refine ⟨?_, ?_, fun _ hmem _ ↦ hmem⟩
      · intro other hmem hne
        exact mem_of_mem_erase ((mem_of_mem_insert hmem).resolve_left hne)
      · intro other hne
        exact (store_memory_of_ne _ _ hne).trans (store_memory_of_ne _ _ hne)
  | getExpiredCb probe now => cases htarget
  | release timer =>
    cases htarget
    cases hstep
    exact ⟨fun _ hmem _ ↦ hmem, fun _ _ ↦ rfl,
      fun _ hmem hne ↦ (List.mem_erase_of_ne hne).mpr hmem⟩

/-- A step as one timer sees it: it expires timers, works on this timer, or leaves it alone. -/
theorem step_seen {action : Action γ κ} {outcome : Outcome γ κ} {next : TimerManager γ κ}
    (timer : Address) (hstep : step action s = .ok (outcome, next)) :
    (∃ probe now, action = .getExpiredCb probe now) ∨ action.target = some timer ∨
      (timer ∈ next.timers → timer ∈ s.timers) ∧ next.memory timer = s.memory timer := by
  cases htarget : action.target with
  | none => exact Or.inl (Action.eq_getExpiredCb htarget)
  | some address =>
    by_cases hsame : timer = address
    · exact Or.inr (Or.inl (congrArg some hsame.symm))
    · have hframe := step_frame htarget hstep
      exact Or.inr (Or.inr ⟨fun hmem ↦ hframe.timers timer hmem hsame,
        hframe.memory timer hsame⟩)

/-- The callback of the timer that an operation works on: the one given to `addTimer`, or that of a
live timer, which it keeps or loses. -/
theorem step_cb {action : Action γ κ} {outcome : Outcome γ κ} {next : TimerManager γ κ}
    {address : Address} (hguard : s.Guard action) (htarget : action.target = some address)
    (hstep : step action s = .ok (outcome, next)) :
    (next.memory address).cb = action.stored ∨ address ∈ s.live ∧
      ((next.memory address).cb = none ∨ (next.memory address).cb = (s.memory address).cb) := by
  cases action with
  | addTimer address ms cb recurring now =>
    cases htarget
    cases hstep
    exact Or.inl (congrArg Timer.cb (addTimer_memory_self ..))
  | addConditionTimer address ms cb cond recurring now =>
    cases htarget
    cases hstep
    exact Or.inl (congrArg Timer.cb (addTimer_memory_self ..))
  | cancel timer =>
    cases htarget
    obtain ⟨done, hcancel⟩ := step_cancel hstep
    refine Or.inr ⟨hguard, ?_⟩
    rcases cancel_cases hcancel with rfl | ⟨position, rfl⟩
    · exact Or.inr rfl
    · rw [erase_memory, store_memory_self]
      exact Or.inl rfl
  | reset timer ms fromNow now =>
    cases htarget
    cases hstep
    refine Or.inr ⟨hguard, Or.inr ?_⟩
    rcases reset_cases s address ms fromNow now with hsame | ⟨position, next, hput⟩
    · rw [hsame]
    · rw [hput, insert_memory, store_memory_self]
  | refresh timer now =>
    cases htarget
    cases hstep
    refine Or.inr ⟨hguard, ?_⟩
    rcases refresh_cases s address now with hsame | hcleared | ⟨position, next, hput⟩
    · rw [hsame]
      exact Or.inr rfl
    · rw [hcleared, store_memory_self]
      exact Or.inl rfl
    · rw [hput, insert_memory, store_memory_self]
      exact Or.inl rfl
  | getExpiredCb probe now => cases htarget
  | release timer =>
    cases htarget
    cases hstep
    exact Or.inr ⟨hguard.1, Or.inr rfl⟩

/-- Assumes: a live timer of a consistent manager that has a callback if it is in the set. `cancel`
takes it out of the set. -/
theorem Consistent.cancel_effect (hs : s.Consistent) (hlive : timer ∈ s.live)
    (harmed : timer ∈ s.timers → (s.memory timer).cb.isSome) {done : Bool}
    {next : TimerManager γ κ} (hcancel : s.cancel timer = .ok (done, next)) :
    next.Consistent ∧ timer ∉ next.timers ∧ next.live = s.live := by
  obtain ⟨_, _, hreturned, hnext⟩ := hs.cancel hlive
  cases hcancel.symm.trans hreturned
  refine ⟨hnext, ?_⟩
  rw [TimerManager.cancel] at hcancel
  by_cases hcb : (s.memory timer).cb.isSome
  · rw [if_pos hcb] at hcancel
    have hfound := (hs.clear timer).find_of_mem (hs.armed timer hlive hcb)
    rw [if_pos hfound.1] at hcancel
    cases hcancel
    exact ⟨fun hmem ↦ ((hfound.2.2 timer).mp hmem).2 rfl, rfl⟩
  · rw [if_neg hcb] at hcancel
    cases hcancel
    exact ⟨fun hmem ↦ hcb (harmed hmem), rfl⟩

/-! ### `getExpiredCb` -/

/-- What `getExpiredCb` takes out of the set and what it leaves: the timers that are not below the
one it searches with are split at the first that is not due just now. -/
theorem expiredEnd_split {memory : Address → Timer γ κ}
    (hmemory : memory = Function.update s.memory probe { next := now }) :
    s.timers.take (s.expiredEnd probe now) =
        OrderedSet.below (less memory) probe s.timers ++
          (OrderedSet.above (less memory) probe s.timers).takeWhile
            (fun timer ↦ (memory timer).next == now) ∧
      s.timers.drop (s.expiredEnd probe now) =
        (OrderedSet.above (less memory) probe s.timers).dropWhile
          (fun timer ↦ (memory timer).next == now) := by
  obtain ⟨below, hbelow⟩ :
      ∃ below, below = OrderedSet.below (less memory) probe s.timers := ⟨_, rfl⟩
  obtain ⟨above, habove⟩ :
      ∃ above, above = OrderedSet.above (less memory) probe s.timers := ⟨_, rfl⟩
  have hsplit : s.timers = below ++ above := by
    rw [hbelow, habove, Increasing.below_append_above]
  have hend : s.expiredEnd probe now =
      below.length + (above.takeWhile fun timer ↦ (memory timer).next == now).length := by
    rw [expiredEnd, OrderedSet.lowerBound, ← hmemory, ← hbelow]
    simp only [hsplit, List.drop_left]
  have hprefix : above.takeWhile (fun timer ↦ (memory timer).next == now) <+: above :=
    List.takeWhile_prefix _
  rw [← hbelow, ← habove, hend, hsplit]
  constructor
  · rw [List.take_length_add_append, ← List.prefix_iff_eq_take.mp hprefix]
  · rw [List.drop_length_add_append]
    exact List.append_cancel_left
      ((List.prefix_iff_eq_append.mp hprefix).trans List.takeWhile_append_dropWhile.symm)

/-- Assumes: the timer that the search is made with is not in the set. What is taken out is due. -/
theorem expired_due (hprobe : probe ∉ s.timers)
    (hmem : timer ∈ s.timers.take (s.expiredEnd probe now)) : (s.memory timer).next ≤ now := by
  obtain ⟨memory, hmemory⟩ :
      ∃ memory, memory = Function.update s.memory probe { next := now } := ⟨_, rfl⟩
  have hsame : memory timer = s.memory timer := by
    have hne : timer ≠ probe := fun heq ↦ hprobe (heq ▸ List.mem_of_mem_take hmem)
    rw [hmemory, Function.update_of_ne hne]
  have hprobed : (memory probe).next = now := by rw [hmemory, Function.update_self]
  rw [(expiredEnd_split hmemory).1] at hmem
  rw [← hsame]
  rcases List.mem_append.mp hmem with hlower | hequal
  · have hlt : deadline memory timer < deadline memory probe :=
      Increasing.rank_lt_of_mem_below less_iff hlower
    exact hprobed ▸ next_le_of_deadline_le (le_of_lt hlt)
  · have hnow := List.mem_takeWhile_imp hequal
    exact UInt64.le_of_eq (eq_of_beq hnow)

/-- The loop does not touch a timer that it does not look at. -/
theorem expireAll_memory_of_notMem {pending : List Address} (hnot : timer ∉ pending) :
    (s.expireAll now pending).2.memory timer = s.memory timer := by
  induction pending generalizing s with
  | nil => rfl
  | cons first rest ih =>
    have hne : timer ≠ first := fun heq ↦ hnot (heq ▸ List.mem_cons_self)
    have hrest : timer ∉ rest := fun hmem ↦ hnot (List.mem_cons_of_mem _ hmem)
    rw [expireAll]
    exact (ih hrest).trans (expire_memory_of_ne hne)

/-- The loop returns the callbacks of the timers. -/
theorem expireAll_callbacks {pending : List Address} (hdistinct : pending.Nodup) :
    (s.expireAll now pending).1 = pending.map fun timer ↦ (s.memory timer).cb := by
  induction pending generalizing s with
  | nil => rfl
  | cons first rest ih =>
    obtain ⟨hfirst, hrest⟩ := List.nodup_cons.mp hdistinct
    rw [expireAll, List.map_cons, ih hrest]
    refine congrArg _ (List.map_congr_left ?_)
    intro timer hmem
    have hne : timer ≠ first := fun heq ↦ hfirst (heq ▸ hmem)
    rw [expire_memory_of_ne hne]

/-- Assumes: the timers the loop looks at are not in the set. Those that are recurring are put into
it. -/
theorem Taken.mem_expireAll {pending : List Address} (hs : Taken pending s) :
    timer ∈ (s.expireAll now pending).2.timers ↔
      timer ∈ s.timers ∨ timer ∈ pending ∧ (s.memory timer).recurring = true := by
  induction pending generalizing s with
  | nil =>
    show timer ∈ s.timers ↔ _
    simp only [List.not_mem_nil, false_and, or_false]
  | cons first rest ih =>
    have hfirst : first ∉ rest := (List.nodup_cons.mp hs.distinct).1
    rw [TimerManager.expireAll, ih (hs.expire now), hs.mem_expire, List.mem_cons]
    by_cases hsame : timer = first
    · simp only [hsame, true_and, hfirst, false_and, or_false]
    · simp only [hsame, false_and, or_false, false_or, expire_memory_of_ne hsame]

/-- Assumes: the manager is consistent. A timer is in the set after `getExpiredCb` when it was there
before and has not expired, or is recurring. A timer that is not recurring has not changed. -/
theorem Consistent.mem_getExpiredCb (hs : s.Consistent)
    (hmem : timer ∈ (s.getExpiredCb probe now).2.timers) :
    timer ∈ s.timers ∧ ((s.memory timer).recurring = false →
      (s.getExpiredCb probe now).2.memory timer = s.memory timer) := by
  rw [TimerManager.getExpiredCb] at hmem ⊢
  by_cases hempty : s.timers.isEmpty = true
  · rw [if_pos hempty] at hmem ⊢
    exact ⟨hmem, fun _ ↦ rfl⟩
  · rw [if_neg hempty] at hmem ⊢
    have hexpiring := hs.expiring (s.expiredEnd probe now)
    rcases hexpiring.toTaken.mem_expireAll.mp hmem with hlater | ⟨hexpired, hrecurring⟩
    · refine ⟨List.mem_of_mem_drop hlater, fun _ ↦ ?_⟩
      exact expireAll_memory_of_notMem fun hin ↦ hexpiring.apart timer hin hlater
    · refine ⟨List.mem_of_mem_take hexpired, fun hnot ↦ ?_⟩
      have hrec : (s.memory timer).recurring = true := hrecurring
      cases hrec.symm.trans hnot

/-- `getExpiredCb` frees no timer. -/
theorem getExpiredCb_live (s : TimerManager γ κ) (probe : Address) (now : UInt64) :
    (s.getExpiredCb probe now).2.live = s.live := by
  have hloop : ∀ (pending : List Address) (s : TimerManager γ κ),
      (s.expireAll now pending).2.live = s.live := by
    intro pending
    induction pending with
    | nil => exact fun _ ↦ rfl
    | cons first rest ih =>
      intro s
      exact (ih (s.expire first now)).trans (expire_live s first now)
  rw [TimerManager.getExpiredCb]
  split_ifs
  · rfl
  · exact hloop _ _

/-- `getExpiredCb` keeps the callback of a timer, or drops it. -/
theorem getExpiredCb_cb (s : TimerManager γ κ) (timer probe : Address) (now : UInt64) :
    ((s.getExpiredCb probe now).2.memory timer).cb = none ∨
      ((s.getExpiredCb probe now).2.memory timer).cb = (s.memory timer).cb := by
  have hone : ∀ (s : TimerManager γ κ) (first : Address),
      ((s.expire first now).memory timer).cb = none ∨
        ((s.expire first now).memory timer).cb = (s.memory timer).cb := by
    intro s first
    by_cases hsame : timer = first
    · rw [hsame, expire_memory_self]
      split_ifs
      · exact Or.inr rfl
      · exact Or.inl rfl
    · exact Or.inr (congrArg Timer.cb (expire_memory_of_ne hsame))
  have hloop : ∀ (pending : List Address) (s : TimerManager γ κ),
      ((s.expireAll now pending).2.memory timer).cb = none ∨
        ((s.expireAll now pending).2.memory timer).cb = (s.memory timer).cb := by
    intro pending
    induction pending with
    | nil => exact fun _ ↦ Or.inr rfl
    | cons first rest ih =>
      intro s
      rcases ih (s.expire first now) with hnone | hkept
      · exact Or.inl hnone
      · rcases hone s first with hnone | hsame
        · exact Or.inl (hkept.trans hnone)
        · exact Or.inr (hkept.trans hsame)
  rw [TimerManager.getExpiredCb]
  split_ifs
  · exact Or.inr rfl
  · exact hloop _ _

/-- Assumes: the manager is consistent and the search is made with a timer that is not in the set. A
callback that `getExpiredCb` returns is that of a timer in the set that is due. -/
theorem Consistent.callback_due (hs : s.Consistent) (hprobe : probe ∉ s.timers)
    {cb : Option (Callback γ κ)} (hmem : cb ∈ (s.getExpiredCb probe now).1) :
    ∃ timer ∈ s.timers, (s.memory timer).next ≤ now ∧ (s.memory timer).cb = cb := by
  rw [TimerManager.getExpiredCb] at hmem
  by_cases hempty : s.timers.isEmpty = true
  · rw [if_pos hempty] at hmem
    exact absurd hmem List.not_mem_nil
  · rw [if_neg hempty] at hmem
    simp only [expireAll_callbacks (hs.expiring (s.expiredEnd probe now)).distinct] at hmem
    obtain ⟨timer, hexpired, hcb⟩ := List.mem_map.mp hmem
    exact ⟨timer, List.mem_of_mem_take hexpired, expired_due hprobe hexpired, hcb⟩

end TimerManager

end Cczoe.Timers
