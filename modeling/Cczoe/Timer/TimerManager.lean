import Mathlib.Data.Prod.Lex
import Cczoe.Foundations.OrderedSet

/-!
# The timers of `timer.cpp` and `timerManager.cpp`

A `TimerManager` holds pointers to timers in the set `m_timers`, which `Timer::Comparator` orders by
the deadline `m_next` and then by the address. The deadline is a field of the timer, so the order
depends on the memory. The clock readings of an operation and the addresses that `new` returns are
inputs of the model. The lock is not part of it: the operations run one at a time.
-/

set_option autoImplicit false
set_option relaxedAutoImplicit false

namespace Cczoe.Timers

open Cczoe.Foundations

/-- The address of a timer. -/
abbrev Address := ℕ

/-- What a timer calls: the callback that `addTimer` was given, or the lambda that the overload with
a condition makes of its callback and its `weak_ptr`. -/
inductive Callback (γ κ : Type)
  | given (cb : γ)
  | conditional (cb : Option γ) (cond : κ)
  deriving DecidableEq, Repr

/-- `Timer`. -/
structure Timer (γ κ : Type) where
  recurring : Bool := false
  ms : UInt64 := 0
  next : UInt64 := 0
  cb : Option (Callback γ κ) := none

/-- `TimerManager` with the timers in memory. `live` lists the timers that `addTimer` has returned
and whose memory is not freed. -/
structure TimerManager (γ κ : Type) where
  memory : Address → Timer γ κ
  live : List Address
  timers : List Address

/-- The undefined behaviour that an operation can run into. -/
inductive Fault
  /-- `m_timers.erase(m_timers.end())` -/
  | eraseEnd
  deriving DecidableEq, Repr

/-- The operations, each with the clock reading it makes. -/
inductive Action (γ κ : Type)
  /-- `addTimer(ms, cb, recurring)`; the timer is allocated at `address`. -/
  | addTimer (address : Address) (ms : UInt64) (cb : Option γ) (recurring : Bool) (now : UInt64)
  /-- `addTimer(ms, cb, cond, recurring)`. -/
  | addConditionTimer (address : Address) (ms : UInt64) (cb : Option γ) (cond : κ)
      (recurring : Bool) (now : UInt64)
  | cancel (timer : Address)
  | reset (timer : Address) (ms : UInt64) (fromNow : Bool) (now : UInt64)
  | refresh (timer : Address) (now : UInt64)
  /-- `getExpiredCb()`; the timer it searches with is allocated at `probe`. -/
  | getExpiredCb (probe : Address) (now : UInt64)
  /-- The last `shared_ptr` to a timer goes. -/
  | release (timer : Address)
  deriving DecidableEq, Repr

/-- What an operation returns, and whether it called `onTimerInsertedAtFront`. -/
inductive Outcome (γ κ : Type)
  | timer (address : Address) (atFront : Bool)
  | result (done : Bool) (atFront : Bool)
  | callbacks (cbs : List (Option (Callback γ κ)))
  | released
  deriving DecidableEq, Repr

section Comparator

variable {γ κ : Type} (memory : Address → Timer γ κ)

/-- `Timer::Comparator`; `none` is the null pointer. -/
def comparator : Option Address → Option Address → Bool
  | none, none => false
  | none, some _ => true
  | some _, none => false
  | some lhs, some rhs =>
    if (memory lhs).next < (memory rhs).next then true
    else if (memory lhs).next > (memory rhs).next then false
    else lhs < rhs

/-- The comparison of two timers in the set, where no null pointer is inserted. -/
def less (lhs rhs : Address) : Bool := comparator memory (some lhs) (some rhs)

/-- The rank by which the set is ordered. -/
def deadline (timer : Address) : ℕ ×ₗ Address := toLex ((memory timer).next.toNat, timer)

end Comparator

namespace TimerManager

variable {γ κ : Type}

/-- The manager before the first timer. -/
def init : TimerManager γ κ := ⟨fun _ ↦ {}, [], []⟩

/-- The timer at an address changes. -/
def store (s : TimerManager γ κ) (address : Address) (timer : Timer γ κ) : TimerManager γ κ :=
  { s with memory := Function.update s.memory address timer }

@[simp] theorem store_memory_self (s : TimerManager γ κ) (address : Address) (timer : Timer γ κ) :
    (s.store address timer).memory address = timer := Function.update_self ..

@[simp] theorem store_memory_of_ne (s : TimerManager γ κ) {address other : Address}
    (timer : Timer γ κ) (hne : other ≠ address) :
    (s.store address timer).memory other = s.memory other := Function.update_of_ne hne ..

@[simp] theorem store_timers (s : TimerManager γ κ) (address : Address) (timer : Timer γ κ) :
    (s.store address timer).timers = s.timers := rfl

/-- `m_timers.find`. -/
def find (s : TimerManager γ κ) (timer : Address) : ℕ :=
  OrderedSet.find (less s.memory) timer s.timers

/-- `m_timers.erase` at a position. -/
def erase (s : TimerManager γ κ) (position : ℕ) : TimerManager γ κ :=
  { s with timers := s.timers.eraseIdx position }

/-- `m_timers.insert`, without what it returns. -/
def insert (s : TimerManager γ κ) (timer : Address) : TimerManager γ κ :=
  { s with timers := (OrderedSet.insert (less s.memory) timer s.timers).1 }

/-- The private `addTimer(timer, mutex)`, with whether it called `onTimerInsertedAtFront`. -/
def addTimerPtr (s : TimerManager γ κ) (timer : Address) : Bool × TimerManager γ κ :=
  let it := (OrderedSet.insert (less s.memory) timer s.timers).2
  (it.2 && it.1 == 0, s.insert timer)

/-- `addTimer(ms, cb, recurring)`. -/
def addTimer (s : TimerManager γ κ) (address : Address) (ms : UInt64)
    (cb : Option (Callback γ κ)) (recurring : Bool) (now : UInt64) : Bool × TimerManager γ κ :=
  addTimerPtr
    { s.store address ⟨recurring, ms, now + ms, cb⟩ with live := address :: s.live } address

/-- `Timer::cancel`. -/
def cancel (s : TimerManager γ κ) (timer : Address) : Except Fault (Bool × TimerManager γ κ) :=
  if (s.memory timer).cb.isSome then
    let cleared := s.store timer { s.memory timer with cb := none }
    let it := cleared.find timer
    if it < cleared.timers.length then .ok (true, cleared.erase it) else .error .eraseEnd
  else .ok (false, s)

/-- `Timer::reset`, with its result and whether it called `onTimerInsertedAtFront`. -/
def reset (s : TimerManager γ κ) (timer : Address) (ms : UInt64) (fromNow : Bool) (now : UInt64) :
    Bool × Bool × TimerManager γ κ :=
  if (s.memory timer).cb.isSome then
    let it := s.find timer
    if it ≠ s.timers.length then
      let next := if fromNow then now + ms else (s.memory timer).next
      (true, ((s.erase it).store timer { s.memory timer with ms := ms, next := next }).addTimerPtr
        timer)
    else (false, false, s)
  else (false, false, s)

/-- `Timer::refresh`. -/
def refresh (s : TimerManager γ κ) (timer : Address) (now : UInt64) : Bool × TimerManager γ κ :=
  if (s.memory timer).cb.isSome then
    let cleared := s.store timer { s.memory timer with cb := none }
    let it := cleared.find timer
    if it ≠ cleared.timers.length then
      let next := now + (s.memory timer).ms
      (true, ((cleared.erase it).store timer
        { cleared.memory timer with next := next }).insert timer)
    else (false, cleared)
  else (false, s)

/-- `getNextTimer`. -/
def getNextTimer (s : TimerManager γ κ) (now : UInt64) : UInt64 :=
  match s.timers with
  | [] => 0xffffffffffffffff
  | next :: _ => if now ≥ (s.memory next).next then 0 else (s.memory next).next - now

/-- The body of the loop of `getExpiredCb`. -/
def expire (s : TimerManager γ κ) (timer : Address) (now : UInt64) : TimerManager γ κ :=
  if (s.memory timer).recurring then
    (s.store timer { s.memory timer with next := now + (s.memory timer).ms }).insert timer
  else s.store timer { s.memory timer with cb := none }

/-- The loop of `getExpiredCb` over `expired`. -/
def expireAll (s : TimerManager γ κ) (now : UInt64) :
    List Address → List (Option (Callback γ κ)) × TimerManager γ κ
  | [] => ([], s)
  | timer :: rest =>
    let after := (s.expire timer now).expireAll now rest
    ((s.memory timer).cb :: after.1, after.2)

/-- The position up to which `getExpiredCb` takes timers out of the set. -/
def expiredEnd (s : TimerManager γ κ) (probe : Address) (now : UInt64) : ℕ :=
  let memory := Function.update s.memory probe { next := now }
  let it := OrderedSet.lowerBound (less memory) probe s.timers
  it + ((s.timers.drop it).takeWhile fun timer ↦ (memory timer).next == now).length

/-- `getExpiredCb`. -/
def getExpiredCb (s : TimerManager γ κ) (probe : Address) (now : UInt64) :
    List (Option (Callback γ κ)) × TimerManager γ κ :=
  if s.timers.isEmpty then ([], s)
  else
    let it := s.expiredEnd probe now
    { s with timers := s.timers.drop it }.expireAll now (s.timers.take it)

/-- `empty`. -/
def empty (s : TimerManager γ κ) : Bool := s.timers.isEmpty

/-- One operation. -/
def step (action : Action γ κ) (s : TimerManager γ κ) :
    Except Fault (Outcome γ κ × TimerManager γ κ) :=
  match action with
  | .addTimer address ms cb recurring now =>
    let added := s.addTimer address ms (cb.map .given) recurring now
    .ok (.timer address added.1, added.2)
  | .addConditionTimer address ms cb cond recurring now =>
    let added := s.addTimer address ms (some (.conditional cb cond)) recurring now
    .ok (.timer address added.1, added.2)
  | .cancel timer => (s.cancel timer).map fun done ↦ (.result done.1 false, done.2)
  | .reset timer ms fromNow now =>
    let done := s.reset timer ms fromNow now
    .ok (.result done.1 done.2.1, done.2.2)
  | .refresh timer now =>
    let done := s.refresh timer now
    .ok (.result done.1 false, done.2)
  | .getExpiredCb probe now =>
    let fired := s.getExpiredCb probe now
    .ok (.callbacks fired.1, fired.2)
  | .release timer => .ok (.released, { s with live := s.live.erase timer })

/-- The calls that can be made: `new` returns memory that is not in use, a timer is used through a
pointer to it, and a timer is freed when the set does not hold it any more. -/
def Guard (s : TimerManager γ κ) : Action γ κ → Prop
  | .addTimer address _ _ _ _ => address ∉ s.live
  | .addConditionTimer address _ _ _ _ _ => address ∉ s.live
  | .cancel timer => timer ∈ s.live
  | .reset timer _ _ _ => timer ∈ s.live
  | .refresh timer _ => timer ∈ s.live
  | .getExpiredCb probe _ => probe ∉ s.live
  | .release timer => timer ∈ s.live ∧ timer ∉ s.timers

end TimerManager

end Cczoe.Timers
