import Cczoe.Http.HeaderLines

/-!
# The connection headers of a request as it arrives

`recvRequest` returns what the callbacks made of a request, where one header of a name replaces
another. Whether the client asked to close is a matter of the bytes it sent: `receivedHeaders` are
the header lines of a text, cut as the vendored parser cuts them, and `CarriesClose` looks for the
option `close` in all lines with the name `Connection`, whatever stands beside it.

`carriesClose_text_iff` is the same for the text of a message, in terms of its headers.
-/

set_option autoImplicit false
set_option relaxedAutoImplicit false

namespace Cczoe.Http

/-! ### Header lines and options -/

/-- The lines of a text that arrives: a line feed ends a line, with or without carriage return. -/
def receivedLines (text : List UInt8) : List (List UInt8) :=
  (text.splitOn 10).map fun line ↦ line.rdropWhile (· = 13)

/-- A line that begins with a blank goes on with the line before it. -/
def joinContinued : List (List UInt8) → List (List UInt8)
  | [] => []
  | line :: rest =>
    match joinContinued rest with
    | [] => [line]
    | next :: others =>
      if next.head?.any isBlank then (line ++ next) :: others else line :: next :: others

/-- The header lines of a request: those behind the request line, up to the first empty one. Empty
lines in front of the request line are left out. -/
def receivedHeaders (text : List UInt8) : List (List UInt8) :=
  joinContinued (blockOf ((receivedLines text).dropWhile (· = [])).tail)

/-- The options of a connection header, between commas and without regard to letter case. -/
def connectionOptions (value : List UInt8) : List (List UInt8) :=
  (value.splitOn 44).map fun option ↦ (trimmed option).map toLower

/-- A request carries `Connection: close`: one of its connection headers has the option `close`. -/
def CarriesClose (text : List UInt8) : Prop :=
  ∃ line ∈ fieldsNamed (ascii "Connection") (receivedHeaders text),
    ascii "close" ∈ connectionOptions (fieldValue line)

instance (text : List UInt8) : Decidable (CarriesClose text) :=
  inferInstanceAs (Decidable (∃ line ∈ _, _))

/-- The option counts wherever it stands, and a second connection header does not take it back. -/
example : CarriesClose
    (ascii "GET / HTTP/1.1\r\nConnection: TE, Close\r\nConnection: TE\r\n\r\n") := by
  decide

/-! ### The text of a message -/

/-- Assumes: a line without a line break in it. It is the first line of a text that begins with
it. -/
theorem receivedLines_append {line : List UInt8} (hline : ∀ c ∈ line, c ≠ 13 ∧ c ≠ 10)
    (rest : List UInt8) : receivedLines (line ++ (crlf ++ rest)) = line :: receivedLines rest := by
  have hsplit : (line ++ (crlf ++ rest)).splitOn 10 = (line ++ [13]) :: rest.splitOn 10 := by
    have hbreak : line ++ (crlf ++ rest) = (line ++ [13]) ++ 10 :: rest := by
      rw [List.append_assoc]
      rfl
    rw [hbreak, List.splitOn_append_cons_self_of_not_mem]
    intro hmem
    rcases List.mem_append.mp hmem with hin | hlast
    · exact (hline 10 hin).2 rfl
    · exact absurd hlast (by decide)
  have hself : line.rdropWhile (· = 13) = line := by
    rw [List.rdropWhile_eq_self_iff]
    intro hne hlast
    exact (hline _ (List.getLast_mem hne)).1 (of_decide_eq_true hlast)
  rw [receivedLines, hsplit, List.map_cons, List.rdropWhile_concat_pos _ _ _ (by decide), hself]
  rfl

theorem receivedLines_flatMap {texts : List (List UInt8)}
    (htexts : ∀ text ∈ texts, ∀ c ∈ text, c ≠ 13 ∧ c ≠ 10) (rest : List UInt8) :
    receivedLines (texts.flatMap (fun text ↦ text ++ crlf) ++ rest) =
      texts ++ receivedLines rest := by
  induction texts with
  | nil => rfl
  | cons text others ih =>
    obtain ⟨htext, hothers⟩ := List.forall_mem_cons.mp htexts
    rw [List.flatMap_cons, List.append_assoc, List.append_assoc, receivedLines_append htext,
      ih hothers]
    rfl

/-- Assumes: lines that do not begin with a blank. None of them goes on with another. -/
theorem joinContinued_eq_self {block : List (List UInt8)}
    (hblock : ∀ line ∈ block, line.head?.any isBlank = false) : joinContinued block = block := by
  induction block with
  | nil => rfl
  | cons line rest ih =>
    obtain ⟨-, hrest⟩ := List.forall_mem_cons.mp hblock
    rw [joinContinued, ih hrest]
    cases rest with
    | nil => rfl
    | cons next others =>
      have hnext := (List.forall_mem_cons.mp hrest).1
      exact if_neg (by rw [hnext]; exact Bool.false_ne_true)

/-- A blank in front of the options is not read. -/
theorem connectionOptions_blank (value : List UInt8) :
    connectionOptions (32 :: value) = connectionOptions value := by
  obtain ⟨first, others, hsplit⟩ := List.exists_cons_of_ne_nil (List.splitOn_ne_nil 44 value)
  have hblank : trimmed (32 :: first) = trimmed first := rfl
  rw [connectionOptions, connectionOptions, List.splitOn_cons_eq_if_modifyHead, hsplit,
    if_neg (by decide), List.modifyHead_cons, List.map_cons, List.map_cons, hblank]

namespace RequestMessage

variable {m : RequestMessage}

/-- The first line of the text of a message. -/
def requestLine (m : RequestMessage) : List UInt8 :=
  ascii (httpMethodToString m.method) ++ ascii " " ++ m.url ++ ascii " HTTP/" ++
    decimal m.httpMajor ++ ascii "." ++ decimal m.httpMinor

theorem text_eq_lines (m : RequestMessage) : m.text = m.requestLine ++ (crlf ++
    ((m.headers.map headerText).flatMap (fun line ↦ line ++ crlf) ++
      ([] ++ (crlf ++ m.body)))) := by
  simp only [text, requestLine, headerText, List.flatMap_map, List.append_assoc, List.nil_append]

theorem requestLine_ne_nil (m : RequestMessage) : m.requestLine ≠ [] := by
  rw [requestLine]
  exact List.append_ne_nil_of_right_ne_nil _ (List.map_eq_nil_iff.not.mpr Nat.toDigits_ne_nil)

/-- Assumes: a well-formed message. Its first line has no line break in it. -/
theorem WellFormed.requestLine_no_break (hm : m.WellFormed) :
    ∀ c ∈ m.requestLine, c ≠ 13 ∧ c ≠ 10 := by
  have hmethod : ∀ c ∈ ascii (httpMethodToString m.method), c ≠ 13 ∧ c ≠ 10 := by
    cases m.method <;> exact forall_mem_of_all (by decide)
  have hascii : ∀ text ∈ [" ", " HTTP/", "."], ∀ c ∈ ascii text, c ≠ 13 ∧ c ≠ 10 := by
    have hall : ∀ text ∈ [" ", " HTTP/", "."],
        ((ascii text).all fun c ↦ decide (c ≠ 13 ∧ c ≠ 10)) = true := by decide
    exact fun text htext ↦ forall_mem_of_all (hall text htext)
  have hdecimal : ∀ n, ∀ c ∈ decimal n, c ≠ 13 ∧ c ≠ 10 := by
    intro n c hc
    have hlow := (digit_of_mem_decimal hc).1
    constructor
    · rintro rfl
      exact absurd hlow (by decide)
    · rintro rfl
      exact absurd hlow (by decide)
  have hurl : ∀ c ∈ m.url, c ≠ 13 ∧ c ≠ 10 := by
    intro c hc
    constructor
    · rintro rfl
      exact absurd (hm.url_chars 13 hc) (by decide)
    · rintro rfl
      exact absurd (hm.url_chars 10 hc) (by decide)
  intro c hc
  simp only [requestLine, List.mem_append] at hc
  rcases hc with (((((hc | hc) | hc) | hc) | hc) | hc) | hc
  · exact hmethod c hc
  · exact hascii " " (by decide) c hc
  · exact hurl c hc
  · exact hascii " HTTP/" (by decide) c hc
  · exact hdecimal _ c hc
  · exact hascii "." (by decide) c hc
  · exact hdecimal _ c hc

/-- A character of a header name is no line break, no blank and no colon. -/
theorem not_special_of_isTokenChar {c : UInt8} (hc : isTokenChar c = true) :
    c ≠ 13 ∧ c ≠ 10 ∧ isBlank c = false ∧ c ≠ 58 := by
  refine ⟨?_, ?_, ?_, ?_⟩
  · rintro rfl
    exact absurd hc (by decide)
  · rintro rfl
    exact absurd hc (by decide)
  · rw [isBlank, Bool.or_eq_false_iff, beq_eq_false_iff_ne, beq_eq_false_iff_ne]
    constructor
    · rintro rfl
      exact absurd hc (by decide)
    · rintro rfl
      exact absurd hc (by decide)
  · rintro rfl
    exact absurd hc (by decide)

/-- Assumes: a well-formed message. The header lines of its text are those of its headers. -/
theorem WellFormed.receivedHeaders_text (hm : m.WellFormed) :
    receivedHeaders m.text = m.headers.map headerText := by
  have hlines : ∀ line ∈ m.headers.map headerText, ∀ c ∈ line, c ≠ 13 ∧ c ≠ 10 := by
    have hcolon : ∀ c ∈ ascii ": ", c ≠ 13 ∧ c ≠ 10 := forall_mem_of_all (by decide)
    rintro line hline c hc
    obtain ⟨header, hheader, rfl⟩ := List.mem_map.mp hline
    simp only [headerText, List.mem_append] at hc
    rcases hc with (hc | hc) | hc
    · have hspecial := not_special_of_isTokenChar ((hm.names header hheader).2 c hc)
      exact ⟨hspecial.1, hspecial.2.1⟩
    · exact hcolon c hc
    · exact (hm.values header hheader).1 c hc
  have hnamed : ∀ line ∈ m.headers.map headerText, line ≠ [] ∧ line.head?.any isBlank = false := by
    rintro line hline
    obtain ⟨header, hheader, rfl⟩ := List.mem_map.mp hline
    obtain ⟨hne, htoken⟩ := hm.names header hheader
    obtain ⟨c, more, hname⟩ := List.exists_cons_of_ne_nil hne
    have hc := not_special_of_isTokenChar (htoken c (hname ▸ List.mem_cons_self))
    rw [headerText, hname]
    exact ⟨List.cons_ne_nil _ _, hc.2.2.1⟩
  rw [receivedHeaders, text_eq_lines, receivedLines_append hm.requestLine_no_break,
    receivedLines_flatMap hlines, receivedLines_append fun c hc ↦ absurd hc List.not_mem_nil,
    List.dropWhile_cons_of_neg (by simpa using m.requestLine_ne_nil), List.tail_cons,
    blockOf_append, if_neg fun hmem ↦ (hnamed [] hmem).1 rfl, blockOf,
    List.takeWhile_cons_of_neg (by decide), List.append_nil]
  exact joinContinued_eq_self fun line hline ↦ (hnamed line hline).2

/-- Assumes: a well-formed message. Its text carries `close` exactly when one of its connection
headers has the option. -/
theorem WellFormed.carriesClose_text_iff (hm : m.WellFormed) :
    CarriesClose m.text ↔ ∃ header ∈ m.headers, SameName header.1 (ascii "Connection") ∧
      ascii "close" ∈ connectionOptions header.2 := by
  have hname : ∀ header ∈ m.headers, ∀ c ∈ header.1, c ≠ 58 := fun header hheader c hc ↦
    (not_special_of_isTokenChar ((hm.names header hheader).2 c hc)).2.2.2
  rw [CarriesClose, hm.receivedHeaders_text]
  constructor
  · rintro ⟨line, hline, hclose⟩
    obtain ⟨hmem, hfield⟩ := List.mem_filter.mp hline
    obtain ⟨header, hheader, rfl⟩ := List.mem_map.mp hmem
    rw [isField_headerText (hname header hheader), decide_eq_true_eq] at hfield
    rw [fieldValue_headerText (hname header hheader), connectionOptions_blank] at hclose
    exact ⟨header, hheader, hfield, hclose⟩
  · rintro ⟨header, hheader, hsame, hclose⟩
    refine ⟨headerText header, List.mem_filter.mpr ⟨List.mem_map_of_mem hheader, ?_⟩, ?_⟩
    · rw [isField_headerText (hname header hheader), decide_eq_true_eq]
      exact hsame
    · rw [fieldValue_headerText (hname header hheader), connectionOptions_blank]
      exact hclose

end RequestMessage

end Cczoe.Http
