import Mathlib.Data.List.Chain
import Cczoe.Log.PatternScans

/-!
# Patterns written from segments

A pattern put together from literal runs and directives comes back from `LogFormatter::init` as the
items of its segments, one for each and in their order (`init_print`). Literal runs and date formats
carry what makes them ones: no `%` in a run, no closing brace in a format, and neither is empty.
`WellPlaced` says how segments may follow each other.

The grammar is in between: `tokens_print` cuts the pattern into the pieces of the segments again.
-/

set_option autoImplicit false
set_option relaxedAutoImplicit false

namespace Cczoe.Log

open Foundations

/-- A literal run. -/
structure LiteralRun where
  text : List UInt8
  text_ne_nil : text ≠ []
  percent_notMem : percent ∉ text

/-- A format for a date directive. -/
structure DateFormat where
  format : List UInt8
  format_ne_nil : format ≠ []
  closeBrace_notMem : closeBrace ∉ format

/-- The directives of one letter, without `%d`. -/
inductive Directive
  | tab
  | threadId
  | threadName
  | fiberId
  | level
  | name
  | filename
  | line
  | message
  | newLine
  deriving DecidableEq, Repr

/-- The letter of the directive: `T`, `t`, `N`, `F`, `p`, `c`, `f`, `l`, `m` or `n`. -/
def Directive.letter : Directive → UInt8
  | .tab => 84
  | .threadId => 116
  | .threadName => 78
  | .fiberId => 70
  | .level => 112
  | .name => 99
  | .filename => 102
  | .line => 108
  | .message => 109
  | .newLine => 110

/-- What the directive stands for. -/
def Directive.item : Directive → FormatItem
  | .tab => .tab
  | .threadId => .threadId
  | .threadName => .threadName
  | .fiberId => .fiberId
  | .level => .level
  | .name => .name
  | .filename => .filename
  | .line => .line
  | .message => .message
  | .newLine => .newLine

/-- A segment of a pattern. -/
inductive Segment
  | literal (run : LiteralRun)
  | date
  | formatted (format : DateFormat)
  | simple (d : Directive)

namespace Segment

/-- How the segment is written. -/
def source : Segment → List UInt8
  | .literal run => run.text
  | .date => [percent, dateLetter]
  | .formatted format => [percent, dateLetter, openBrace] ++ format.format ++ [closeBrace]
  | .simple d => [percent, d.letter]

/-- What the segment stands for. -/
def item : Segment → FormatItem
  | .literal run => .string run.text
  | .date => .dateTime defaultDateFormat
  | .formatted format => .dateTime format.format
  | .simple d => d.item

/-- The segment is a piece of the grammar. -/
def token : Segment → Token
  | .literal run => .text run.text
  | .date => .date none
  | .formatted format => .date (some format.format)
  | .simple d => .letter d.letter

/-- The second segment may follow the first: two runs would be one, and a run that begins with a
brace would be taken for the format of a plain `%d`. -/
def MayPrecede : Segment → Segment → Prop
  | .literal _, .literal _ => False
  | .date, .literal run => run.text.head? ≠ some openBrace
  | _, _ => True

end Segment

/-- The segments may follow each other as they do, and the last one is a directive. -/
structure WellPlaced (segments : List Segment) : Prop where
  mayPrecede : segments.IsChain Segment.MayPrecede
  last : ∀ run, segments.getLast? ≠ some (.literal run)

/-- The pattern of the segments. -/
def print (segments : List Segment) : List UInt8 := segments.flatMap Segment.source

theorem Directive.directive_letter (d : Directive) : directive d.letter = some d.item := by
  cases d <;> rfl

theorem Directive.letter_ne_dateLetter (d : Directive) : d.letter ≠ dateLetter := by
  cases d <;> decide

theorem Segment.items_token (segment : Segment) : segment.token.items = [segment.item] := by
  cases segment with
  | simple d => exact congrArg Option.toList d.directive_letter
  | _ => rfl

/-- Behind a segment, the pattern is at its end or goes on with a `%`, or with a run that may follow
the segment. -/
theorem print_cases (segments : List Segment) :
    print segments = [] ∨ (∃ after, print segments = percent :: after) ∨
      ∃ run later, segments = .literal run :: later := by
  cases segments with
  | nil => exact .inl rfl
  | cons segment later =>
    cases segment with
    | literal run => exact .inr (.inr ⟨run, later, rfl⟩)
    | date => exact .inr (.inl ⟨_, rfl⟩)
    | formatted format => exact .inr (.inl ⟨_, rfl⟩)
    | simple d => exact .inr (.inl ⟨_, rfl⟩)

theorem dateFormat_eq_none {rest : List UInt8} (h : rest.head? ≠ some openBrace) :
    dateFormat rest = none := by
  cases rest with
  | nil => rfl
  | cons c rest => exact if_neg fun hformat ↦ h (congrArg some hformat.1)

/-- A run ends where the next segment begins. -/
theorem nextToken_run {run : LiteralRun} {c : UInt8} {text : List UInt8}
    (hrun : run.text = c :: text) {later : List Segment}
    (h : (Segment.literal run :: later).IsChain Segment.MayPrecede) :
    nextToken c (text ++ print later) = (.text (c :: text), print later) := by
  have hpercent : percent ∉ c :: text := hrun ▸ run.percent_notMem
  obtain ⟨hc, htext⟩ := not_or.mp (mt List.mem_cons.mpr hpercent)
  rw [nextToken_text (Ne.symm hc)]
  rcases print_cases later with hnil | ⟨after, hafter⟩ | ⟨other, later, rfl⟩
  · rw [hnil, List.append_nil, upTo_of_notMem htext, fromMark_eq_nil_iff.mpr htext]
  · rw [hafter, upTo_append_cons htext, fromMark_append_cons htext]
  · exact absurd h.rel (by simp [Segment.MayPrecede])

/-- A plain date directive has no format behind it. -/
theorem dateFormat_print {later : List Segment}
    (h : (Segment.date :: later).IsChain Segment.MayPrecede) : dateFormat (print later) = none := by
  apply dateFormat_eq_none
  rcases print_cases later with hnil | ⟨after, hafter⟩ | ⟨run, later, rfl⟩
  · simp [hnil]
  · simp [hafter, show percent ≠ openBrace by decide]
  · rw [print, List.flatMap_cons, Segment.source, List.head?_append_of_ne_nil _ run.text_ne_nil]
    exact h.rel

/-- The pieces of the pattern are the segments it was put together from. -/
theorem tokens_print {segments : List Segment} (h : segments.IsChain Segment.MayPrecede) :
    tokens (print segments) = segments.map Segment.token := by
  induction segments with
  | nil => exact tokens_nil
  | cons segment later ih =>
    have hlater := ih h.tail
    rw [print, List.flatMap_cons, ← print, List.map_cons, ← hlater]
    cases segment with
    | literal run =>
      obtain ⟨c, text, htext⟩ := List.exists_cons_of_ne_nil run.text_ne_nil
      have hnext := nextToken_run htext h
      rw [Segment.source, Segment.token, htext, List.cons_append, tokens_cons, hnext]
    | date =>
      have hnext := nextToken_plain (dateFormat_print h)
      rw [Segment.source, List.cons_append, tokens_cons, List.singleton_append, hnext]
      rfl
    | formatted format =>
      have hnext := nextToken_formatted
        (dateFormat_of_braces format.format_ne_nil format.closeBrace_notMem (print later))
      have hsource : (Segment.formatted format).source ++ print later = percent :: dateLetter ::
          openBrace :: (format.format ++ closeBrace :: print later) := by
        simp [Segment.source]
      rw [hsource, tokens_cons, hnext]
      rfl
    | simple d =>
      have hnext := nextToken_letter d.letter_ne_dateLetter (print later)
      rw [Segment.source, List.cons_append, tokens_cons, List.singleton_append, hnext]
      rfl

/-- Assumes: segments that are well placed. Their pattern is read back as the items of the
segments. -/
theorem init_print {segments : List Segment} (h : WellPlaced segments) :
    init (print segments) = .ok (segments.map Segment.item) := by
  have hends : endsInText (segments.map Segment.token) = false := by
    rw [endsInText, List.getLast?_map]
    cases hlast : segments.getLast? with
    | none => rfl
    | some segment =>
      cases segment with
      | literal run => exact absurd hlast (h.last run)
      | _ => rfl
  have hitems : (segments.map Segment.token).flatMap Token.items = segments.map Segment.item := by
    rw [List.flatMap_map, List.map_eq_flatMap]
    exact List.flatMap_congr fun segment _ ↦ segment.items_token
  rw [init_eq, tokens_print h.mayPrecede, hends, hitems]
  rfl

/-- The pattern that `Logger::Logger` gives its formatter:
`%d{%Y-%m-%d %H:%M:%S}%T%t%T%N%T%F%T[%p]%T[%c]%T%f:%l%T%m%n`. -/
theorem init_print_default :
    init [37, 100, 123, 37, 89, 45, 37, 109, 45, 37, 100, 32, 37, 72, 58, 37, 77, 58, 37, 83, 125,
        37, 84, 37, 116, 37, 84, 37, 78, 37, 84, 37, 70, 37, 84, 91, 37, 112, 93, 37, 84, 91, 37,
        99, 93, 37, 84, 37, 102, 58, 37, 108, 37, 84, 37, 109, 37, 110] =
      .ok [.dateTime [37, 89, 45, 37, 109, 45, 37, 100, 32, 37, 72, 58, 37, 77, 58, 37, 83], .tab,
        .threadId, .tab, .threadName, .tab, .fiberId, .tab, .string [91], .level, .string [93],
        .tab, .string [91], .name, .string [93], .tab, .filename, .string [58], .line, .tab,
        .message, .newLine] :=
  @init_print [.formatted ⟨defaultDateFormat, by decide, by decide⟩, .simple .tab,
    .simple .threadId, .simple .tab, .simple .threadName, .simple .tab, .simple .fiberId,
    .simple .tab, .literal ⟨[91], by decide, by decide⟩, .simple .level,
    .literal ⟨[93], by decide, by decide⟩, .simple .tab, .literal ⟨[91], by decide, by decide⟩,
    .simple .name, .literal ⟨[93], by decide, by decide⟩, .simple .tab, .simple .filename,
    .literal ⟨[58], by decide, by decide⟩, .simple .line, .simple .tab, .simple .message,
    .simple .newLine] ⟨by simp [Segment.MayPrecede], by simp⟩

end Cczoe.Log
