import Cczoe.Http.DumpRoundTrip
import Mathlib.Data.List.DropRight

/-!
# The header lines of a message

A message is cut at its line breaks, as `dump` writes them, and its header lines are those up to the
first empty one. A peer that takes a single line feed for a line break as well may find more. A
header line has its name in front of the first colon (`isField`), and a content length is digits
with blanks around them (`readLength`). `FramedOnce` says that the lines give one framing: one
connection line and one content length at most, and the length of the body when there is one.

A line break ends a line whatever stands in front of it (`lines_append_crlf`), so a text that is
written piece by piece is read piece by piece (`lines_flatMap`), and what stands behind an empty
line is not read (`blockOf_append`).
-/

set_option autoImplicit false
set_option relaxedAutoImplicit false

namespace Cczoe.Http

open Foundations

/-! ### Header lines -/

/-- The bytes without the blanks around them. -/
def trimmed (bytes : List UInt8) : List UInt8 := (bytes.dropWhile isBlank).rdropWhile isBlank

/-- The number that decimal digits spell. -/
def spelled (digits : List UInt8) : ℕ := digits.foldl (fun n c ↦ 10 * n + (c.toNat - 48)) 0

/-- The content length in a header value: digits with blanks around them. -/
def readLength (value : List UInt8) : Option ℕ :=
  let digits := trimmed value
  if digits ≠ [] ∧ digits.all isNum then some (spelled digits) else none

/-- The line of a header. -/
def headerText (header : List UInt8 × List UInt8) : List UInt8 :=
  header.1 ++ ascii ": " ++ header.2

/-- A line is a header with the given name, which stands in front of its first colon. -/
def isField (name line : List UInt8) : Bool :=
  decide (58 ∈ line) && decide (SameName (line.takeWhile (· ≠ 58)) name)

/-- The value of a header line. -/
def fieldValue (line : List UInt8) : List UInt8 := (line.dropWhile (· ≠ 58)).tail

/-- The header lines with the given name. -/
def fieldsNamed (name : List UInt8) (block : List (List UInt8)) : List (List UInt8) :=
  block.filter (isField name)

/-- The lines of a header block: those in front of the first empty one. -/
def blockOf (lines : List (List UInt8)) : List (List UInt8) := lines.takeWhile (· ≠ [])

/-- A peer that reads the header lines of a text finds at most one content length and at most one
connection line, and the length of the body if that is not empty. -/
structure FramedOnce (text body : List UInt8) : Prop where
  connection_once : (fieldsNamed (ascii "Connection") (headerLines text)).length ≤ 1
  length_once : (fieldsNamed (ascii "Content-Length") (headerLines text)).length ≤ 1
  length_eq : body ≠ [] →
    (fieldsNamed (ascii "Content-Length") (headerLines text)).map
      (fun line ↦ readLength (fieldValue line)) = [some body.length]

/-! ### Cutting a text into lines -/

theorem lines_ne_nil (text : List UInt8) : lines text ≠ [] := by
  fun_induction lines text with
  | case1 => exact List.cons_ne_nil _ _
  | case2 => exact List.cons_ne_nil _ _
  | case3 => exact List.cons_ne_nil _ _
  | case4 => exact List.cons_ne_nil _ _

/-- Assumes: no line break at the front. The first byte belongs to the first line. -/
theorem lines_cons {c : UInt8} {rest first : List UInt8} {others : List (List UInt8)}
    (hbreak : ∀ tail, c = 13 → rest ≠ 10 :: tail) (hlines : lines rest = first :: others) :
    lines (c :: rest) = (c :: first) :: others := by
  rw [lines, hlines]
  exact hbreak

/-- A line break ends a line, whatever stands in front of it. -/
theorem lines_append_crlf (text rest : List UInt8) :
    lines (text ++ (crlf ++ rest)) = lines text ++ lines rest := by
  fun_induction lines text with
  | case1 => rfl
  | case2 tail ih => exact congrArg ([] :: ·) ih
  | case3 c tail hbreak hnil ih => exact absurd hnil (lines_ne_nil tail)
  | case4 c tail hbreak first others hlines ih =>
    have hlonger : ∀ more, c = 13 → tail ++ (crlf ++ rest) ≠ 10 :: more := by
      intro more hcr hcut
      cases tail with
      | nil => exact absurd (List.head_eq_of_cons_eq hcut) (by decide)
      | cons second later =>
        exact hbreak later hcr (by rw [← List.head_eq_of_cons_eq hcut])
    rw [hlines, List.cons_append] at ih
    rw [List.cons_append, lines_cons hlonger ih, List.cons_append]

/-- Texts that each end in a line break. -/
theorem lines_flatMap (texts : List (List UInt8)) (rest : List UInt8) :
    lines (texts.flatMap (fun text ↦ text ++ crlf) ++ rest) =
      texts.flatMap lines ++ lines rest := by
  induction texts with
  | nil => rfl
  | cons text others ih =>
    rw [List.flatMap_cons, List.flatMap_cons, List.append_assoc, List.append_assoc,
      lines_append_crlf, ih, List.append_assoc]

/-- Assumes: no carriage return. The text is one line. -/
theorem lines_of_no_cr {text : List UInt8} (htext : ∀ c ∈ text, c ≠ 13) : lines text = [text] := by
  induction text with
  | nil => rfl
  | cons c rest ih =>
    obtain ⟨hc, hrest⟩ := List.forall_mem_cons.mp htext
    exact lines_cons (fun _ hcr ↦ absurd hcr hc) (ih hrest)

theorem blockOf_cons {line : List UInt8} (hline : line ≠ []) (rest : List (List UInt8)) :
    blockOf (line :: rest) = line :: blockOf rest :=
  List.takeWhile_cons_of_pos (decide_eq_true hline)

/-- Lines behind an empty one are not in the block. -/
theorem blockOf_append (first second : List (List UInt8)) :
    blockOf (first ++ second) =
      if [] ∈ first then blockOf first else first ++ blockOf second := by
  induction first with
  | nil => rfl
  | cons line rest ih =>
    by_cases hline : line = []
    · subst hline
      rw [if_pos List.mem_cons_self]
      rfl
    · have hmem : [] ∈ line :: rest ↔ [] ∈ rest :=
        List.mem_cons.trans (or_iff_right fun hnil ↦ hline hnil.symm)
      rw [List.cons_append, blockOf_cons hline, blockOf_cons hline, ih]
      simp only [hmem]
      split_ifs <;> rfl

theorem blockOf_of_notMem {block : List (List UInt8)} (hblock : [] ∉ block) :
    blockOf block = block := by
  have happend := blockOf_append block []
  rw [if_neg hblock, List.append_nil] at happend
  exact happend.trans (List.append_nil block)

/-! ### Fields -/

theorem fieldsNamed_append (name : List UInt8) (first second : List (List UInt8)) :
    fieldsNamed name (first ++ second) = fieldsNamed name first ++ fieldsNamed name second :=
  List.filter_append first second

/-- A line has one name. -/
theorem sameName_of_isField {first second line : List UInt8} (hfirst : isField first line = true)
    (hsecond : isField second line = true) : SameName first second := by
  rw [isField, Bool.and_eq_true, decide_eq_true_eq, decide_eq_true_eq] at hfirst hsecond
  exact hfirst.2.symm.trans hsecond.2

/-- Assumes: a name without a colon. The line of a header has that name. -/
theorem isField_headerText {header : List UInt8 × List UInt8} (hname : ∀ c ∈ header.1, c ≠ 58)
    (name : List UInt8) : isField name (headerText header) = decide (SameName header.1 name) := by
  have hcolon : ascii ": " = [58, 32] := by decide
  have hmem : 58 ∈ headerText header := by
    rw [headerText, hcolon]
    simp
  have htake : (headerText header).takeWhile (· ≠ 58) = header.1 := by
    rw [headerText, hcolon, List.append_assoc, List.takeWhile_append_of_pos (by simpa using hname),
      List.cons_append, List.takeWhile_cons_of_neg (by decide), List.append_nil]
  rw [isField, htake, decide_eq_true hmem, Bool.true_and]

/-- A blank in front of a content length is not read. -/
theorem readLength_blank (value : List UInt8) : readLength (32 :: value) = readLength value := rfl

/-- Assumes: a name without a colon. The value of a header line has the blank in front. -/
theorem fieldValue_headerText {header : List UInt8 × List UInt8}
    (hname : ∀ c ∈ header.1, c ≠ 58) : fieldValue (headerText header) = 32 :: header.2 := by
  have hcolon : ascii ": " = [58, 32] := by decide
  rw [fieldValue, headerText, hcolon, List.append_assoc,
    List.dropWhile_append_of_pos (by simpa using hname), List.cons_append,
    List.dropWhile_cons_of_neg (by decide)]
  rfl

/-- Assumes: a name without a colon. The value of a header is read as such. -/
theorem readLength_headerText {header : List UInt8 × List UInt8} (hname : ∀ c ∈ header.1, c ≠ 58) :
    readLength (fieldValue (headerText header)) = readLength header.2 := by
  rw [fieldValue_headerText hname, readLength_blank]

theorem spelled_decimal (n : ℕ) : spelled (decimal n) = n := by
  have hdigits : spelled (decimal n) = Nat.ofDigitChars 10 (Nat.toDigits 10 n) 0 := by
    rw [spelled, decimal, List.foldl_map, Nat.ofDigitChars_eq_foldl]
    apply List.foldl_ext
    intro value digit hdigit
    have hisDigit := Nat.isDigit_of_mem_toDigits (by decide) (by decide) hdigit
    have hrange : 48 ≤ digit.toNat ∧ digit.toNat ≤ 57 := by
      simpa [Char.isDigit, UInt32.le_iff_toNat_le] using hisDigit
    have hbyte : (UInt8.ofNat digit.toNat).toNat = digit.toNat := by
      rw [UInt8.toNat_ofNat']
      omega
    rw [hbyte]
    rfl
  rw [hdigits, Nat.ofDigitChars_ten_toDigits]

/-- A number is written as it is read. -/
theorem readLength_decimal (n : ℕ) : readLength (decimal n) = some n := by
  have hdigit : ∀ c ∈ decimal n, isNum c = true ∧ isBlank c = false := by
    intro c hc
    obtain ⟨hlow, hhigh⟩ := digit_of_mem_decimal hc
    refine ⟨by simp [isNum, hlow, hhigh], ?_⟩
    rw [isBlank, Bool.or_eq_false_iff, beq_eq_false_iff_ne, beq_eq_false_iff_ne]
    constructor
    · rintro rfl
      exact absurd hlow (by decide)
    · rintro rfl
      exact absurd hlow (by decide)
  have hne : decimal n ≠ [] := by
    rw [decimal, ne_eq, List.map_eq_nil_iff]
    exact Nat.toDigits_ne_nil
  have htrimmed : trimmed (decimal n) = decimal n := by
    have hfront : (decimal n).dropWhile isBlank = decimal n := by
      cases hdecimal : decimal n with
      | nil => rfl
      | cons c rest =>
        have hc := (hdigit c (hdecimal ▸ List.mem_cons_self)).2
        exact List.dropWhile_cons_of_neg (by rw [hc]; exact Bool.false_ne_true)
    rw [trimmed, hfront, List.rdropWhile_eq_self_iff]
    intro hl hblank
    rw [(hdigit _ (List.getLast_mem hl)).2] at hblank
    exact Bool.false_ne_true hblank
  have hall : (decimal n).all isNum = true := List.all_eq_true.mpr fun c hc ↦ (hdigit c hc).1
  rw [readLength, htrimmed]
  simp only [if_pos (And.intro hne hall), spelled_decimal]

end Cczoe.Http
