import Mathlib.Data.List.TakeWhile
import Cczoe.Foundations.GuardedRuns

/-!
# The pattern of a log formatter

`LogFormatter::init` turns the pattern into the items that later format an event. The loop keeps one
index into the pattern and looks ahead of it: one character to choose the directive, as far as the
closing brace for a date format, and as far as the next `%` for a literal run.

Characters are their values in the encoding of the source. Reading `m_pattern[k]` gives the
terminating zero where `k` is the length of the pattern, and any index beyond it is out of bounds:
the run ends there. `lt_of_turn_eq_ok` says that each pass of the outer loop moves the index on.
`literalLoop_eq`, `initLoop_of_le` and `initLoop_of_lt` unfold the loops.
-/

set_option autoImplicit false
set_option relaxedAutoImplicit false

namespace Cczoe.Log

open Foundations (bind_eq_ok ok_bind)

/-- The character `%`. -/
def percent : UInt8 := 37

/-- The character `{`, written as its value. -/
def openBrace : UInt8 := 123

/-- The character `}`, written as its value. -/
def closeBrace : UInt8 := 125

/-- The letter `d`, which begins a date directive. -/
def dateLetter : UInt8 := 100

/-- `LogFormatter::FormatItem`, by its subclasses. Those that `init` does not make are left out. -/
inductive FormatItem
  | message
  | level
  | name
  | threadName
  | threadId
  | fiberId
  | dateTime (format : List UInt8)
  | filename
  | line
  | newLine
  | string (text : List UInt8)
  | tab
  deriving DecidableEq, Repr

/-- The default argument of `DateTimeFormatItem`, `%Y-%m-%d %H:%M:%S`. -/
def defaultDateFormat : List UInt8 :=
  [37, 89, 45, 37, 109, 45, 37, 100, 32, 37, 72, 58, 37, 77, 58, 37, 83]

/-- The `switch` of `init` on the character after a `%`, without its case `d`: the item pushed,
where there is one. -/
def directive : UInt8 → Option FormatItem
  | 84 => some .tab          -- T
  | 116 => some .threadId    -- t
  | 78 => some .threadName   -- N
  | 70 => some .fiberId      -- F
  | 112 => some .level       -- p
  | 99 => some .name         -- c
  | 102 => some .filename    -- f
  | 108 => some .line        -- l
  | 109 => some .message     -- m
  | 110 => some .newLine     -- n
  | _ => none

/-- A read of the pattern beyond its terminating zero. -/
structure OutOfBounds where
  index : ℕ
  deriving DecidableEq, Repr

/-- `m_pattern[k]` -/
def charAt (pattern : List UInt8) (k : ℕ) : Except OutOfBounds UInt8 :=
  if hk : k < pattern.length then .ok pattern[k]
  else if k = pattern.length then .ok 0
  else .error ⟨k⟩

/-- `m_pattern.substr(position, count)` -/
def substr (pattern : List UInt8) (position count : ℕ) : List UInt8 :=
  (pattern.drop position).take count

theorem le_length_of_charAt {pattern : List UInt8} {k : ℕ} {c : UInt8}
    (h : charAt pattern k = .ok c) : k ≤ pattern.length := by
  unfold charAt at h
  split at h
  · omega
  · split at h
    · omega
    · cases h

theorem charAt_beyond {pattern : List UInt8} {k : ℕ} (h : pattern.length < k) :
    charAt pattern k = .error ⟨k⟩ := by
  rw [charAt, dif_neg (by omega), if_neg (by omega)]

/-- The loop that looks for the closing brace, from the index `close` on. -/
def closingLoop (pattern : List UInt8) (close : ℕ) : Except OutOfBounds ℕ :=
  if close < pattern.length then do
    let c ← charAt pattern close
    if c ≠ closeBrace then closingLoop pattern (close + 1) else pure close
  else pure close
termination_by pattern.length - close

/-- The inner loop of a literal run: `i` is the index of the character pushed last. The character
pushed next is the one the condition has read. -/
def literalLoop (pattern : List UInt8) (i : ℕ) (str : List UInt8) :
    Except OutOfBounds (ℕ × List UInt8) :=
  match _hc : charAt pattern (i + 1) with
  | .error fault => .error fault
  | .ok c => if c ≠ percent then literalLoop pattern (i + 1) (str ++ [c]) else .ok (i, str)
termination_by pattern.length - i
decreasing_by
  have hle := le_length_of_charAt _hc
  omega

theorem literalLoop_eq (pattern : List UInt8) (i : ℕ) (str : List UInt8) :
    literalLoop pattern i str = charAt pattern (i + 1) >>= fun c ↦
      if c ≠ percent then literalLoop pattern (i + 1) (str ++ [c]) else .ok (i, str) := by
  rw [literalLoop]
  split
  · next fault hc =>
    rw [hc]
    rfl
  · next c hc =>
    rw [hc]
    rfl

/-- The case `d` of the `switch`: the index it leaves and the item it pushes. -/
def dateDirective (pattern : List UInt8) (i : ℕ) : Except OutOfBounds (ℕ × FormatItem) :=
  let plain := (i, FormatItem.dateTime defaultDateFormat)
  if i + 2 < pattern.length then do
    let brace ← charAt pattern (i + 2)
    if brace = openBrace then
      let close ← closingLoop pattern (i + 3)
      let c ← charAt pattern close
      if c = closeBrace ∧ close ≠ i + 3 then
        pure (close - 1, .dateTime (substr pattern (i + 3) (close - i - 3)))
      else pure plain
    else pure plain
  else pure plain

/-- One pass of the outer loop: the next index and the items pushed. -/
def turn (pattern : List UInt8) (i : ℕ) : Except OutOfBounds (ℕ × List FormatItem) := do
  let c ← charAt pattern i
  if c = percent then
    let letter ← charAt pattern (i + 1)
    if letter = dateLetter then
      let (i, item) ← dateDirective pattern i
      pure (i + 2, [item])
    else pure (i + 2, (directive letter).toList)
  else
    let (i, str) ← literalLoop pattern i [c]
    pure (i + 1, [.string str])

theorem le_of_closingLoop {pattern : List UInt8} {close : ℕ} :
    ∀ {last : ℕ}, closingLoop pattern close = .ok last → close ≤ last := by
  fun_induction closingLoop pattern close with
  | case1 close hlt ih =>
    intro last h
    simp only [charAt, hlt, dite_true, ok_bind] at h
    split at h
    · exact (Nat.le_succ close).trans (ih h)
    · exact (Except.ok.inj h).le
  | case2 close hle =>
    intro last h
    exact (Except.ok.inj h).le

theorem le_of_literalLoop {pattern : List UInt8} {i : ℕ} {str : List UInt8} :
    ∀ {last : ℕ} {text : List UInt8}, literalLoop pattern i str = .ok (last, text) → i ≤ last := by
  fun_induction literalLoop pattern i str with
  | case1 i str fault hc =>
    intro last text h
    cases h
  | case2 i str c hc hne ih =>
    intro last text h
    exact (Nat.le_succ i).trans (ih h)
  | case3 i str c hc heq =>
    intro last text h
    cases h
    exact le_rfl

theorem le_of_dateDirective {pattern : List UInt8} {i last : ℕ} {item : FormatItem}
    (h : dateDirective pattern i = .ok (last, item)) : i ≤ last := by
  unfold dateDirective at h
  split at h
  · obtain ⟨brace, -, h⟩ := bind_eq_ok h
    split at h
    · obtain ⟨close, hclose, h⟩ := bind_eq_ok h
      obtain ⟨c, -, h⟩ := bind_eq_ok h
      have hle : i + 3 ≤ close := le_of_closingLoop hclose
      split at h
      · cases h
        omega
      · cases h
        exact le_rfl
    · cases h
      exact le_rfl
  · cases h
    exact le_rfl

/-- Every pass of the outer loop moves the index on. -/
theorem lt_of_turn_eq_ok {pattern : List UInt8} {i next : ℕ} {pushed : List FormatItem}
    (h : turn pattern i = .ok (next, pushed)) : i < next := by
  obtain ⟨c, -, h⟩ := bind_eq_ok h
  split at h
  · obtain ⟨letter, -, h⟩ := bind_eq_ok h
    split at h
    · obtain ⟨⟨last, item⟩, hdate, h⟩ := bind_eq_ok h
      cases h
      have hle := le_of_dateDirective hdate
      omega
    · cases h
      omega
  · obtain ⟨⟨last, str⟩, hliteral, h⟩ := bind_eq_ok h
    cases h
    have hle := le_of_literalLoop hliteral
    omega

/-- The outer loop, at the index `i` and with the items pushed so far. -/
def initLoop (pattern : List UInt8) (i : ℕ) (items : List FormatItem) :
    Except OutOfBounds (List FormatItem) :=
  if i < pattern.length then
    match _hturn : turn pattern i with
    | .error fault => .error fault
    | .ok (next, pushed) => initLoop pattern next (items ++ pushed)
  else .ok items
termination_by pattern.length - i
decreasing_by
  have hlt := lt_of_turn_eq_ok _hturn
  omega

/-- `LogFormatter::init`. It gives `m_items`, which is empty when the constructor calls it. -/
def init (pattern : List UInt8) : Except OutOfBounds (List FormatItem) := initLoop pattern 0 []

theorem initLoop_of_le {pattern : List UInt8} {i : ℕ} (h : pattern.length ≤ i)
    (items : List FormatItem) : initLoop pattern i items = .ok items := by
  rw [initLoop, if_neg (by omega)]

theorem initLoop_of_lt {pattern : List UInt8} {i : ℕ} (h : i < pattern.length)
    (items : List FormatItem) :
    initLoop pattern i items =
      turn pattern i >>= fun made ↦ initLoop pattern made.1 (items ++ made.2) := by
  rw [initLoop, if_pos h]
  split
  · next fault hturn =>
    rw [hturn]
    rfl
  · next following pushed hturn =>
    rw [hturn]
    rfl

end Cczoe.Log
