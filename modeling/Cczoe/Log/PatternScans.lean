import Mathlib.Data.List.Basic
import Cczoe.Foundations.MarkedLists
import Cczoe.Log.LogFormatter

/-!
# What a pattern says, and what the formatter makes of it

`tokens` cuts a pattern into the pieces of its grammar: literal runs, date directives with or
without a format, other directives, the escape `%%` and a `%` that nothing follows. No character
gets lost on the way (`flatMap_source_tokens`).

`turn_eq` compares one pass of the formatter with the first piece of what it has before it, and
`init_eq` all passes with all pieces. A literal run that reaches the end of the pattern takes the
inner loop beyond the terminating zero, and an escape gives no item, so `keepsText_iff` is the exact
condition for a pattern to be read within its bounds and without a loss.
-/

set_option autoImplicit false
set_option relaxedAutoImplicit false

namespace Cczoe.Log

open Foundations

/-! ### The grammar of patterns -/

/-- A piece of a pattern. -/
inductive Token
  | text (run : List UInt8)
  | date (format : Option (List UInt8))
  | letter (c : UInt8)
  | lone
  deriving DecidableEq, Repr

namespace Token

/-- The escape `%%`. -/
def escape : Token := .letter percent

/-- The characters of the piece. -/
def source : Token → List UInt8
  | .text run => run
  | .date none => [percent, dateLetter]
  | .date (some format) => [percent, dateLetter, openBrace] ++ format ++ [closeBrace]
  | .letter c => [percent, c]
  | .lone => [percent]

/-- The text of a literal run. -/
def run : Token → List UInt8
  | .text run => run
  | _ => []

/-- The characters that the piece is to put into the output as they are. -/
def literal : Token → List UInt8
  | .text run => run
  | .letter c => if c = percent then [percent] else []
  | _ => []

/-- The items that `init` pushes for the piece. -/
def items : Token → List FormatItem
  | .text run => [.string run]
  | .date format => [.dateTime (format.getD defaultDateFormat)]
  | .letter c => (directive c).toList
  | .lone => []

/-- The piece is a literal run. -/
def isText : Token → Bool
  | .text _ => true
  | _ => false

end Token

/-- The format in braces that begins `rest`, if one does, and what follows it. It is not empty. -/
def dateFormat : List UInt8 → Option (List UInt8 × List UInt8)
  | [] => none
  | brace :: rest =>
    if brace = openBrace ∧ closeBrace ∈ rest ∧ upTo closeBrace rest ≠ [] then
      some (upTo closeBrace rest, (fromMark closeBrace rest).tail)
    else none

/-- The first piece of the pattern `c :: rest`, and what follows it. -/
def nextToken (c : UInt8) (rest : List UInt8) : Token × List UInt8 :=
  if c = percent then
    match rest with
    | [] => (.lone, [])
    | letter :: rest =>
      if letter = dateLetter then
        match dateFormat rest with
        | some (format, after) => (.date (some format), after)
        | none => (.date none, rest)
      else (.letter letter, rest)
  else (.text (c :: upTo percent rest), fromMark percent rest)

theorem source_dateFormat {rest format after : List UInt8}
    (h : dateFormat rest = some (format, after)) :
    rest = openBrace :: (format ++ closeBrace :: after) := by
  cases rest with
  | nil => cases h
  | cons brace rest =>
    rw [dateFormat] at h
    split at h
    · next hformat =>
      obtain ⟨rfl, hclose, -⟩ := hformat
      obtain ⟨before, after', hbefore, rfl⟩ := exists_eq_append_cons hclose
      rw [upTo_append_cons hbefore, fromMark_append_cons hbefore] at h
      cases h
      rfl
    · cases h

theorem dateFormat_of_braces {format : List UInt8} (hne : format ≠ [])
    (hclose : closeBrace ∉ format) (after : List UInt8) :
    dateFormat (openBrace :: (format ++ closeBrace :: after)) = some (format, after) := by
  rw [dateFormat, upTo_append_cons hclose, fromMark_append_cons hclose, if_pos ⟨rfl, by simp, hne⟩]
  rfl

section Cases

variable {c : UInt8} {rest : List UInt8}

theorem nextToken_text (hc : c ≠ percent) (rest : List UInt8) :
    nextToken c rest = (.text (c :: upTo percent rest), fromMark percent rest) :=
  if_neg hc

theorem nextToken_lone : nextToken percent [] = (.lone, []) := rfl

theorem nextToken_letter {letter : UInt8} (hletter : letter ≠ dateLetter) (rest : List UInt8) :
    nextToken percent (letter :: rest) = (.letter letter, rest) :=
  if_neg hletter

theorem nextToken_plain (hformat : dateFormat rest = none) :
    nextToken percent (dateLetter :: rest) = (.date none, rest) := by
  simp [nextToken, hformat]

theorem nextToken_formatted {format after : List UInt8}
    (hformat : dateFormat rest = some (format, after)) :
    nextToken percent (dateLetter :: rest) = (.date (some format), after) := by
  simp [nextToken, hformat]

/-- The five kinds of a first piece. -/
theorem nextToken_cases {motive : UInt8 → List UInt8 → Prop}
    (text : ∀ c rest, c ≠ percent →
      nextToken c rest = (.text (c :: upTo percent rest), fromMark percent rest) → motive c rest)
    (lone : nextToken percent [] = (.lone, []) → motive percent [])
    (formatted : ∀ format after rest, dateFormat rest = some (format, after) →
      nextToken percent (dateLetter :: rest) = (.date (some format), after) →
        motive percent (dateLetter :: rest))
    (plain : ∀ rest, dateFormat rest = none →
      nextToken percent (dateLetter :: rest) = (.date none, rest) →
        motive percent (dateLetter :: rest))
    (letter : ∀ letter rest, letter ≠ dateLetter →
      nextToken percent (letter :: rest) = (.letter letter, rest) →
        motive percent (letter :: rest))
    (c : UInt8) (rest : List UInt8) : motive c rest := by
  by_cases hc : c = percent
  · subst hc
    cases rest with
    | nil => exact lone nextToken_lone
    | cons first rest =>
      by_cases hfirst : first = dateLetter
      · subst hfirst
        cases hformat : dateFormat rest with
        | none => exact plain rest hformat (nextToken_plain hformat)
        | some result =>
          exact formatted result.1 result.2 rest hformat (nextToken_formatted hformat)
      · exact letter first rest hfirst (nextToken_letter hfirst rest)
  · exact text c rest hc (nextToken_text hc rest)

end Cases

/-- No character of the pattern gets lost. -/
theorem source_nextToken (c : UInt8) (rest : List UInt8) :
    (nextToken c rest).1.source ++ (nextToken c rest).2 = c :: rest := by
  induction c, rest using nextToken_cases with
  | text c rest hc hnext => simp [hnext, Token.source]
  | lone hnext => rw [hnext]; rfl
  | formatted format after rest hformat hnext =>
    rw [hnext, source_dateFormat hformat]
    simp [Token.source]
  | plain rest hformat hnext => rw [hnext]; rfl
  | letter letter rest hletter hnext => rw [hnext]; rfl

theorem length_nextToken_lt (c : UInt8) (rest : List UInt8) :
    (nextToken c rest).2.length < (c :: rest).length := by
  have hsource : (nextToken c rest).1.source ≠ [] := by
    induction c, rest using nextToken_cases with
    | text c rest hc hnext => simp [hnext, Token.source]
    | lone hnext => simp [hnext, Token.source]
    | formatted format after rest hformat hnext => simp [hnext, Token.source]
    | plain rest hformat hnext => simp [hnext, Token.source]
    | letter letter rest hletter hnext => simp [hnext, Token.source]
  have hlength := congrArg List.length (source_nextToken c rest)
  have hpos := List.length_pos_iff.mpr hsource
  rw [List.length_append] at hlength
  omega

/-- The pieces of a pattern. -/
def tokens : List UInt8 → List Token
  | [] => []
  | c :: rest => (nextToken c rest).1 :: tokens (nextToken c rest).2
termination_by pattern => pattern.length
decreasing_by exact length_nextToken_lt c rest

@[simp] theorem tokens_nil : tokens [] = [] := by
  rw [tokens]

theorem tokens_cons (c : UInt8) (rest : List UInt8) :
    tokens (c :: rest) = (nextToken c rest).1 :: tokens (nextToken c rest).2 := by
  rw [tokens]

/-- The last piece is a literal run. -/
def endsInText (pieces : List Token) : Bool := pieces.getLast?.any Token.isText

/-- The pieces, one after the other, are the pattern. -/
theorem flatMap_source_tokens (pattern : List UInt8) :
    (tokens pattern).flatMap Token.source = pattern := by
  fun_induction tokens pattern with
  | case1 => rfl
  | case2 c rest ih => rw [List.flatMap_cons, ih, source_nextToken]

/-! ### The loops of the formatter -/

section Loops

variable {pattern : List UInt8} {i : ℕ}

theorem charAt_of_drop {rest : List UInt8} (h : pattern.drop i = rest) (hi : i ≤ pattern.length) :
    charAt pattern i = .ok (rest.headD 0) := by
  have hread := getElem?_of_drop h
  rw [List.headD_eq_head?_getD, ← hread]
  rcases hi.lt_or_eq with hlt | rfl
  · simp [charAt, hlt]
  · simp [charAt]

/-- The loop for the closing brace passes over what comes before the first one. -/
theorem closingLoop_of_drop {rest : List UInt8} (h : pattern.drop i = rest)
    (hi : i ≤ pattern.length) :
    closingLoop pattern i = .ok (i + (upTo closeBrace rest).length) := by
  induction rest generalizing i with
  | nil =>
    have hlength : pattern.length ≤ i := List.drop_eq_nil_iff.mp h
    rw [closingLoop, if_neg (by omega)]
    rfl
  | cons c rest ih =>
    have hlt := lt_length_of_drop h
    rw [closingLoop, if_pos hlt, charAt_of_drop h hi, upTo_cons]
    by_cases hc : c = closeBrace
    · simp [hc]
    · have hrest := ih (drop_succ_of_drop h) hlt
      rw [Nat.add_right_comm, Nat.add_assoc] at hrest
      rw [if_neg hc, List.length_cons, ← hrest]
      exact if_pos hc

/-- Where the loop for the closing brace stops, it has found one if there is one. -/
theorem charAt_upTo {rest : List UInt8} (h : pattern.drop i = rest) (hi : i ≤ pattern.length) :
    ∃ c, charAt pattern (i + (upTo closeBrace rest).length) = .ok c ∧
      (c = closeBrace ↔ closeBrace ∈ rest) := by
  by_cases hclose : closeBrace ∈ rest
  · obtain ⟨before, after, hbefore, rfl⟩ := exists_eq_append_cons hclose
    have hmark := drop_add_of_drop h
    refine ⟨closeBrace, ?_, iff_of_true rfl hclose⟩
    rw [upTo_append_cons hbefore]
    exact charAt_of_drop hmark (lt_length_of_drop hmark).le
  · have hend : i + rest.length = pattern.length := by
      rw [← h, List.length_drop]
      omega
    refine ⟨0, ?_, iff_of_false (by decide) hclose⟩
    rw [upTo_of_notMem hclose, hend]
    exact charAt_of_drop List.drop_length le_rfl

/-- The inner loop of a literal run stops in front of the next `%`. -/
theorem literalLoop_of_drop {run rest : List UInt8} (hrun : percent ∉ run)
    (h : pattern.drop (i + 1) = run ++ percent :: rest) (str : List UInt8) :
    literalLoop pattern i str = .ok (i + run.length, str ++ run) := by
  induction run generalizing i str with
  | nil =>
    have hlt := lt_length_of_drop h
    rw [literalLoop_eq, charAt_of_drop h hlt.le]
    simp
  | cons c run ih =>
    obtain ⟨hc, hrun⟩ := not_or.mp (mt List.mem_cons.mpr hrun)
    have hlt := lt_length_of_drop h
    have hrest := ih hrun (drop_succ_of_drop h) (str ++ [c])
    rw [List.append_assoc, List.singleton_append, Nat.add_assoc, Nat.add_comm 1] at hrest
    rw [literalLoop_eq, charAt_of_drop h hlt.le, List.length_cons, ← hrest]
    exact if_pos (Ne.symm hc)

/-- Without another `%` the inner loop of a literal run reads beyond the terminating zero. -/
theorem literalLoop_of_notMem {rest : List UInt8} (hrest : percent ∉ rest)
    (h : pattern.drop (i + 1) = rest) (hi : i < pattern.length) (str : List UInt8) :
    literalLoop pattern i str = .error ⟨pattern.length + 1⟩ := by
  induction rest generalizing i str with
  | nil =>
    have hlength : pattern.length ≤ i + 1 := List.drop_eq_nil_iff.mp h
    have hend : i + 1 = pattern.length := by omega
    -- The terminating zero is no `%`, so the loop pushes it and reads the next character.
    have hbeyond : literalLoop pattern (i + 1) (str ++ [0]) = .error ⟨pattern.length + 1⟩ := by
      rw [literalLoop_eq, hend, charAt_beyond (Nat.lt_succ_self _)]
      rfl
    rw [literalLoop_eq, charAt_of_drop h hi]
    exact hbeyond
  | cons c rest ih =>
    obtain ⟨hc, hrest⟩ := not_or.mp (mt List.mem_cons.mpr hrest)
    have hlt := lt_length_of_drop h
    have hloop := ih hrest (drop_succ_of_drop h) hlt (str ++ [c])
    rw [literalLoop_eq, charAt_of_drop h hlt.le]
    simp [Ne.symm hc, hloop]

/-- The date directive takes the format in braces behind it, if there is one. -/
theorem dateDirective_of_drop {rest : List UInt8}
    (h : pattern.drop i = percent :: dateLetter :: rest) :
    dateDirective pattern i = .ok (match dateFormat rest with
      | some (format, _) => (i + 2 + format.length, .dateTime format)
      | none => (i, .dateTime defaultDateFormat)) := by
  have hrest : pattern.drop (i + 2) = rest := drop_succ_of_drop (drop_succ_of_drop h)
  have hlt : i + 1 < pattern.length := lt_length_of_drop (drop_succ_of_drop h)
  rw [dateDirective]
  cases rest with
  | nil =>
    have hlength : pattern.length ≤ i + 2 := List.drop_eq_nil_iff.mp hrest
    rw [if_neg (by omega)]
    rfl
  | cons brace rest =>
    have hbrace : i + 2 < pattern.length := lt_length_of_drop hrest
    have hafter : pattern.drop (i + 3) = rest := drop_succ_of_drop hrest
    have hclosing := closingLoop_of_drop hafter hbrace
    obtain ⟨c, hread, hfound⟩ := charAt_upTo hafter hbrace
    rw [if_pos hbrace, charAt_of_drop hrest hbrace.le]
    by_cases hopen : brace = openBrace
    · by_cases hformat : closeBrace ∈ rest ∧ upTo closeBrace rest ≠ []
      · have htext : substr pattern (i + 3) (upTo closeBrace rest).length =
            upTo closeBrace rest := by
          rw [substr, hafter, take_length_upTo]
        have hcount (n : ℕ) : i + 3 + n - i - 3 = n := by omega
        have hlast (n : ℕ) : i + 3 + n - 1 = i + 2 + n := by omega
        rw [dateFormat, if_pos ⟨hopen, hformat⟩]
        simp [hopen, hclosing, hread, hfound, hformat, hcount,
          hlast, htext]
      · rw [dateFormat, if_neg fun h ↦ hformat h.2]
        simp [hopen, hclosing, hread, hfound, hformat]
    · simp [dateFormat, hopen]

/-- One pass of the formatter and the first piece of what it has before it. A literal run that
reaches the end of the pattern takes the pass beyond it; with any other piece the pass pushes the
items of the piece and leaves the index behind it. -/
theorem turn_eq {c : UInt8} {rest : List UInt8} (h : pattern.drop i = c :: rest) :
    if (nextToken c rest).1.isText = true ∧ (nextToken c rest).2 = [] then
      turn pattern i = .error ⟨pattern.length + 1⟩
    else ∃ next, turn pattern i = .ok (next, (nextToken c rest).1.items) ∧
      pattern.drop next = (nextToken c rest).2 := by
  have hi := lt_length_of_drop h
  have hread := charAt_of_drop h hi.le
  have hahead := charAt_of_drop (drop_succ_of_drop h) hi
  induction c, rest using nextToken_cases with
  | text c rest hc hnext =>
    rw [hnext]
    by_cases hmark : percent ∈ rest
    · obtain ⟨run, after, hrun, rfl⟩ := exists_eq_append_cons hmark
      have hloop := literalLoop_of_drop hrun (drop_succ_of_drop h) [c]
      rw [upTo_append_cons hrun, fromMark_append_cons hrun, if_neg (by simp)]
      refine ⟨i + run.length + 1, ?_, ?_⟩
      · simp [turn, hread, hc, hloop, Token.items]
      · rw [Nat.add_right_comm]
        exact drop_add_of_drop (drop_succ_of_drop h)
    · have hloop := literalLoop_of_notMem hmark (drop_succ_of_drop h) hi [c]
      rw [if_pos ⟨rfl, fromMark_eq_nil_iff.mpr hmark⟩]
      simp [turn, hread, hc, hloop]
  | lone hnext =>
    rw [hnext, if_neg (by simp [Token.isText])]
    refine ⟨i + 2, ?_, ?_⟩
    · simp [turn, hread, hahead, Token.items, directive,
        dateLetter]
    · rw [← List.drop_drop, h]
      rfl
  | formatted format after rest hformat hnext =>
    have hdate := dateDirective_of_drop h
    rw [hformat] at hdate
    rw [hnext, if_neg (by simp [Token.isText])]
    refine ⟨i + 2 + format.length + 2, ?_, ?_⟩
    · simp [turn, hread, hahead, hdate, Token.items]
    · have hbrace := drop_succ_of_drop (drop_succ_of_drop h)
      rw [source_dateFormat hformat] at hbrace
      have hclose := drop_succ_of_drop (drop_add_of_drop (drop_succ_of_drop hbrace))
      rw [← hclose]
      congr 1
      omega
  | plain rest hformat hnext =>
    have hdate := dateDirective_of_drop h
    rw [hformat] at hdate
    rw [hnext, if_neg (by simp [Token.isText])]
    refine ⟨i + 2, ?_, drop_succ_of_drop (drop_succ_of_drop h)⟩
    simp [turn, hread, hahead, hdate, Token.items]
  | letter letter rest hletter hnext =>
    rw [hnext, if_neg (by simp [Token.isText])]
    refine ⟨i + 2, ?_, drop_succ_of_drop (drop_succ_of_drop h)⟩
    simp [turn, hread, hahead, hletter, Token.items]

end Loops

/-! ### The formatter and the grammar -/

theorem tokens_eq_nil_iff {pattern : List UInt8} : tokens pattern = [] ↔ pattern = [] := by
  cases pattern with
  | nil => simp
  | cons c rest => simp [tokens_cons]

theorem endsInText_cons (token : Token) {pieces : List Token}
    (h : pieces = [] → token.isText = false) :
    endsInText (token :: pieces) = endsInText pieces := by
  cases pieces with
  | nil => simp [endsInText, h rfl]
  | cons second pieces => rw [endsInText, endsInText, List.getLast?_cons_cons]

/-- The formatter, from an index on, against the pieces of what it has before it. -/
theorem initLoop_eq {pattern rest : List UInt8} {i : ℕ} (h : pattern.drop i = rest)
    (items : List FormatItem) :
    initLoop pattern i items =
      if endsInText (tokens rest) = true then .error ⟨pattern.length + 1⟩
      else .ok (items ++ (tokens rest).flatMap Token.items) := by
  fun_induction tokens rest generalizing i items with
  | case1 =>
    rw [initLoop_of_le (List.drop_eq_nil_iff.mp h)]
    simp [endsInText]
  | case2 c rest ih =>
    have hturn := turn_eq h
    rw [initLoop_of_lt (lt_length_of_drop h)]
    split at hturn
    · next hlast =>
      rw [hturn, hlast.2, if_pos (by simp [endsInText, hlast.1])]
      rfl
    · next hlast =>
      obtain ⟨next, hturn, hnext⟩ := hturn
      have hends := endsInText_cons (nextToken c rest).1 fun hnil ↦
        Bool.eq_false_iff.mpr fun htext ↦ hlast ⟨htext, tokens_eq_nil_iff.mp hnil⟩
      rw [hturn, hends, List.flatMap_cons, ← List.append_assoc]
      exact ih hnext _

/-- `init` reads one character beyond the terminating zero where the last piece of the pattern is a
literal run. With any other pattern it gives the items of the pieces. -/
theorem init_eq (pattern : List UInt8) :
    init pattern =
      if endsInText (tokens pattern) = true then .error ⟨pattern.length + 1⟩
      else .ok ((tokens pattern).flatMap Token.items) :=
  initLoop_eq List.drop_zero []

/-- The text that a pattern is to put into the output as it is: its literal runs, and a `%` for
every escape. -/
def literalText (pattern : List UInt8) : List UInt8 := (tokens pattern).flatMap Token.literal

/-- The text of the string items. -/
def stringText (items : List FormatItem) : List UInt8 :=
  items.flatMap fun
    | .string text => text
    | _ => []

/-- `init` comes to its end without a read beyond the terminating zero, and the string items contain
all text of the pattern in its order. -/
def KeepsText (pattern : List UInt8) : Prop :=
  ∃ items, init pattern = .ok items ∧ (literalText pattern).Sublist (stringText items)

theorem stringText_directive (c : UInt8) : stringText (directive c).toList = [] := by
  unfold directive
  split <;> rfl

/-- Only a literal run gives a string item, with its text. -/
theorem stringText_items (token : Token) : stringText token.items = token.run := by
  cases token with
  | text run => exact List.append_nil run
  | date format => rfl
  | letter c => exact stringText_directive c
  | lone => rfl

theorem stringText_tokens (pattern : List UInt8) :
    stringText ((tokens pattern).flatMap Token.items) = (tokens pattern).flatMap Token.run := by
  rw [stringText, List.flatMap_assoc]
  exact congrArg (List.flatMap · (tokens pattern)) (funext stringText_items)

theorem Token.literal_of_ne {token : Token} (h : token ≠ .escape) : token.literal = token.run := by
  cases token with
  | letter c => exact if_neg fun hc ↦ h (congrArg Token.letter hc)
  | _ => rfl

/-- Literal runs have no `%` in them. -/
theorem percent_notMem_run {pattern : List UInt8} {token : Token} (h : token ∈ tokens pattern) :
    percent ∉ token.run := by
  fun_induction tokens pattern with
  | case1 => cases h
  | case2 c rest ih =>
    rcases List.mem_cons.mp h with rfl | hlater
    · induction c, rest using nextToken_cases with
      | text c rest hc hnext =>
        rw [hnext]
        exact List.not_mem_cons_of_ne_of_not_mem (Ne.symm hc) (notMem_upTo percent rest)
      | lone hnext => simp [hnext, Token.run]
      | formatted format after rest hformat hnext => simp [hnext, Token.run]
      | plain rest hformat hnext => simp [hnext, Token.run]
      | letter letter rest hletter hnext => simp [hnext, Token.run]
    · exact ih hlater

/-- The formatter reads a pattern within its bounds and without a loss exactly where its last piece
is no literal run and none of its pieces is the escape. -/
theorem keepsText_iff (pattern : List UInt8) :
    KeepsText pattern ↔
      endsInText (tokens pattern) = false ∧ Token.escape ∉ tokens pattern := by
  constructor
  · rintro ⟨items, hitems, htext⟩
    rw [init_eq] at hitems
    split at hitems
    · cases hitems
    · next hends =>
      cases hitems
      refine ⟨Bool.eq_false_iff.mpr hends, fun hescape ↦ ?_⟩
      have hpercent : percent ∈ literalText pattern :=
        List.mem_flatMap.mpr ⟨.escape, hescape, by simp [Token.escape, Token.literal]⟩
      rw [stringText_tokens] at htext
      obtain ⟨token, htoken, hmem⟩ := List.mem_flatMap.mp (htext.subset hpercent)
      exact percent_notMem_run htoken hmem
  · rintro ⟨hends, hescape⟩
    refine ⟨(tokens pattern).flatMap Token.items, ?_, ?_⟩
    · rw [init_eq, hends]
      rfl
    · have hliteral : literalText pattern = (tokens pattern).flatMap Token.run :=
        List.flatMap_congr fun token htoken ↦
          Token.literal_of_ne (ne_of_mem_of_not_mem htoken hescape)
      rw [stringText_tokens, hliteral]

/-- Of the pattern `%m!` the character at the index 4 is read, the escape `%%` gives no item. -/
theorem not_keepsText_exclamation : ¬ KeepsText [37, 109, 33] ∧ ¬ KeepsText [37, 37] := by
  have hexclamation : init [37, 109, 33] = .error ⟨4⟩ := by
    rw [init_eq]
    simp [tokens_cons, nextToken, percent, dateLetter, upTo, fromMark, endsInText, Token.isText]
  have hescape : init [37, 37] = .ok [] := by
    rw [init_eq]
    simp [tokens_cons, nextToken, percent, dateLetter, endsInText, Token.isText, Token.items,
      directive]
  have hliteral : literalText [37, 37] = [37] := by
    simp [literalText, tokens_cons, nextToken, percent, dateLetter, Token.literal]
  constructor
  · rintro ⟨items, hitems, -⟩
    rw [hexclamation] at hitems
    cases hitems
  · rintro ⟨items, hitems, htext⟩
    rw [hescape] at hitems
    cases hitems
    rw [hliteral] at htext
    cases htext

end Cczoe.Log
