import Cczoe.Http.HeaderLines

/-!
# The header block of a dump

What `HttpRequest::dump` and `HttpResponse::dump` write in front of the empty line is a
`DumpedHead`: a first line, the header lines that the dump adds and those of the header map.

`dump_framedOnce_iff` says exactly when a peer finds one framing in a dump. A request adds a
connection line to one of its own, and a response a content length to one of its own; a request
trusts the content length it finds in its map. For messages without line breaks in their parts the
condition is on the header map alone (`HttpRequest.framedOnce_iff_of_plain`,
`HttpResponse.framedOnce_iff_of_plain`).
-/

set_option autoImplicit false
set_option relaxedAutoImplicit false

namespace Cczoe.Http

open Foundations

/-! ### The head of a dump -/

/-- A header that a dump adds under a name. -/
structure AddedHeader (name : List UInt8) where
  header : List UInt8 × List UInt8
  same_name : SameName header.1 name
  no_colon : ∀ c ∈ header.1, c ≠ 58
  no_cr : ∀ c ∈ headerText header, c ≠ 13

/-- What a dump writes in front of the empty line: its first line, the connection line that it adds,
the header map, and the content length that it adds. -/
structure DumpedHead where
  start : List UInt8
  connection : Option (AddedHeader (ascii "Connection"))
  headers : List (List UInt8 × List UInt8)
  length : Option (AddedHeader (ascii "Content-Length"))

/-- The lines of the added header. -/
def addedLines {name : List UInt8} (added : Option (AddedHeader name)) : List (List UInt8) :=
  added.toList.map fun one ↦ headerText one.header

namespace DumpedHead

/-- The head, each piece with its line break, the empty line and the body. -/
def text (head : DumpedHead) (body : List UInt8) : List UInt8 :=
  (head.start :: (addedLines head.connection ++
    (head.headers.map headerText ++ addedLines head.length))).flatMap (fun piece ↦ piece ++ crlf) ++
    (crlf ++ body)

/-- Header lines that are written with the first line, when that has line breaks. -/
def front (head : DumpedHead) : List (List UInt8) := (lines head.start).tail

/-- The lines of the header map. -/
def own (head : DumpedHead) : List (List UInt8) :=
  head.headers.flatMap fun header ↦ lines (headerText header)

/-- The header lines that the message brings itself. -/
def brought (head : DumpedHead) : List (List UInt8) := blockOf (head.front ++ head.own)

/-- The connection line that the dump adds is in the block, not behind an empty line. -/
def AddsConnection (head : DumpedHead) : Prop := head.connection.isSome ∧ [] ∉ head.front

/-- The content length that the dump adds is in the block. -/
def AddsLength (head : DumpedHead) : Prop := head.length.isSome ∧ [] ∉ head.front ++ head.own

instance (head : DumpedHead) : Decidable head.AddsConnection := instDecidableAnd

instance (head : DumpedHead) : Decidable head.AddsLength := instDecidableAnd

/-- The condition on the lines that a message brings itself: none that the dump adds, and else at
most one connection line and the content length of the body. -/
structure OwnLinesFit (head : DumpedHead) (body : List UInt8) : Prop where
  connection : (fieldsNamed (ascii "Connection") head.brought).length ≤
    if head.AddsConnection then 0 else 1
  length_once : (fieldsNamed (ascii "Content-Length") head.brought).length ≤
    if head.AddsLength then 0 else 1
  length_eq : body ≠ [] → ¬ head.AddsLength →
    (fieldsNamed (ascii "Content-Length") head.brought).map
      (fun line ↦ readLength (fieldValue line)) = [some body.length]

end DumpedHead

/-! ### What a peer finds in a dump -/

section Added

variable {name : List UInt8} (added : Option (AddedHeader name))

theorem flatMap_lines_addedLines : (addedLines added).flatMap lines = addedLines added := by
  cases added with
  | none => rfl
  | some one => exact (List.append_nil _).trans (lines_of_no_cr one.no_cr)

/-- The added header has its name. -/
theorem isField_of_mem_addedLines {line : List UInt8} (hline : line ∈ addedLines added) :
    isField name line = true := by
  obtain ⟨one, _, rfl⟩ := List.mem_map.mp hline
  rw [isField_headerText one.no_colon, decide_eq_true one.same_name]

theorem nil_notMem_addedLines : [] ∉ addedLines added := fun hnil ↦
  Bool.false_ne_true (isField_of_mem_addedLines added hnil)

theorem fieldsNamed_addedLines : fieldsNamed name (addedLines added) = addedLines added :=
  List.filter_eq_self.mpr fun _ hline ↦ isField_of_mem_addedLines added hline

/-- Assumes: another name. The added header does not have it. -/
theorem fieldsNamed_addedLines_of_ne {other : List UInt8} (hother : ¬ SameName name other) :
    fieldsNamed other (addedLines added) = [] := by
  apply List.filter_eq_nil_iff.mpr
  intro line hline hfield
  exact hother (sameName_of_isField (isField_of_mem_addedLines added hline) hfield)

theorem length_addedLines : (addedLines added).length = if added.isSome then 1 else 0 := by
  cases added with
  | none => rfl
  | some one => rfl

end Added

namespace DumpedHead

/-- The header lines of a dump. -/
theorem headerLines_text (head : DumpedHead) (body : List UInt8) :
    headerLines (head.text body) = blockOf (head.front ++ (addedLines head.connection ++
      (head.own ++ addedLines head.length))) := by
  have hstart : lines head.start = (lines head.start).head (lines_ne_nil _) :: head.front :=
    (List.cons_head_tail (lines_ne_nil _)).symm
  have hown : (head.headers.map headerText).flatMap lines = head.own := List.flatMap_map ..
  have hbody : lines (crlf ++ body) = [] :: lines body := lines_append_crlf [] body
  have hstop (block : List (List UInt8)) : blockOf (block ++ [] :: lines body) = blockOf block := by
    rw [blockOf_append]
    split_ifs with hnil
    · rfl
    · rw [blockOf_of_notMem hnil]
      exact List.append_nil block
  have hlines : (lines (head.text body)).tail = (head.front ++ (addedLines head.connection ++
      (head.own ++ addedLines head.length))) ++ [] :: lines body := by
    rw [text, lines_flatMap, List.flatMap_cons, List.flatMap_append, List.flatMap_append, hown,
      flatMap_lines_addedLines, flatMap_lines_addedLines, hstart, hbody]
    rfl
  exact (congrArg blockOf hlines).trans (hstop _)

/-- The block up to its first empty line, by where that line is. -/
theorem fieldsNamed_block (head : DumpedHead) (name : List UInt8) :
    fieldsNamed name (blockOf (head.front ++ (addedLines head.connection ++
      (head.own ++ addedLines head.length)))) =
      if [] ∈ head.front then fieldsNamed name head.brought
      else fieldsNamed name head.front ++ (fieldsNamed name (addedLines head.connection) ++
        (fieldsNamed name (blockOf head.own) ++
          if [] ∈ head.own then [] else fieldsNamed name (addedLines head.length))) := by
  have hconnection := nil_notMem_addedLines head.connection
  have hlength := blockOf_of_notMem (nil_notMem_addedLines head.length)
  by_cases hfront : [] ∈ head.front
  · rw [if_pos hfront, brought, blockOf_append, if_pos hfront, blockOf_append, if_pos hfront]
  · rw [if_neg hfront, blockOf_append, if_neg hfront, blockOf_append, if_neg hconnection,
      blockOf_append, fieldsNamed_append, fieldsNamed_append]
    split_ifs with hown
    · rw [List.append_nil]
    · rw [fieldsNamed_append, hlength, blockOf_of_notMem hown]

theorem fieldsNamed_brought {head : DumpedHead} (hfront : [] ∉ head.front) (name : List UInt8) :
    fieldsNamed name head.brought =
      fieldsNamed name head.front ++ fieldsNamed name (blockOf head.own) := by
  rw [brought, blockOf_append, if_neg hfront, fieldsNamed_append]

/-- The connection lines in a dump are those that the message brings and the one that is added. -/
theorem connection_count (head : DumpedHead) (body : List UInt8) :
    (fieldsNamed (ascii "Connection") (headerLines (head.text body))).length =
      (fieldsNamed (ascii "Connection") head.brought).length +
        if head.AddsConnection then 1 else 0 := by
  rw [headerLines_text, fieldsNamed_block]
  by_cases hfront : [] ∈ head.front
  · rw [if_pos hfront, if_neg fun hadds : head.AddsConnection ↦ hadds.2 hfront]
    rfl
  · have hadds : head.AddsConnection ↔ head.connection.isSome := and_iff_left hfront
    rw [if_neg hfront, fieldsNamed_brought hfront, fieldsNamed_addedLines,
      fieldsNamed_addedLines_of_ne head.length (by decide), ite_self, List.append_nil]
    simp only [List.length_append, length_addedLines, hadds]
    omega

/-- The content lengths in a dump are those that the message brings and the one that is added. -/
theorem length_fields (head : DumpedHead) (body : List UInt8) :
    fieldsNamed (ascii "Content-Length") (headerLines (head.text body)) =
      fieldsNamed (ascii "Content-Length") head.brought ++
        if [] ∈ head.front ++ head.own then [] else addedLines head.length := by
  rw [headerLines_text, fieldsNamed_block]
  by_cases hfront : [] ∈ head.front
  · rw [if_pos hfront, if_pos (List.mem_append_left _ hfront), List.append_nil]
  · have hmem : [] ∈ head.front ++ head.own ↔ [] ∈ head.own :=
      List.mem_append.trans (or_iff_right hfront)
    rw [if_neg hfront, fieldsNamed_brought hfront,
      fieldsNamed_addedLines_of_ne head.connection (by decide), fieldsNamed_addedLines]
    simp only [hmem, List.nil_append, List.append_assoc]

/-- Assumes: an added content length is that of the body. A peer finds one framing exactly when the
lines that the message brings itself fit. -/
theorem framedOnce_text_iff {head : DumpedHead} {body : List UInt8}
    (hlength : ∀ added ∈ head.length, added.header.2 = decimal body.length) :
    FramedOnce (head.text body) body ↔ head.OwnLinesFit body := by
  have hadded : (if [] ∈ head.front ++ head.own then [] else addedLines head.length).length =
      if head.AddsLength then 1 else 0 := by
    by_cases hnil : [] ∈ head.front ++ head.own
    · rw [if_pos hnil, if_neg fun hadds : head.AddsLength ↦ hadds.2 hnil]
      rfl
    · have hadds : head.AddsLength ↔ head.length.isSome := and_iff_left hnil
      rw [if_neg hnil, length_addedLines]
      simp only [hadds]
  constructor
  · rintro ⟨hconnection, honce, heq⟩
    rw [connection_count] at hconnection
    rw [length_fields, List.length_append, hadded] at honce
    refine ⟨?_, ?_, ?_⟩
    · split_ifs at hconnection ⊢ <;> omega
    · split_ifs at honce ⊢ <;> omega
    · intro hbody hadds
      rw [if_neg hadds, List.length_eq_zero_iff] at hadded
      rw [← heq hbody, length_fields, hadded, List.append_nil]
  · rintro ⟨hconnection, honce, heq⟩
    refine ⟨?_, ?_, ?_⟩
    · rw [connection_count]
      split_ifs at hconnection ⊢ <;> omega
    · rw [length_fields, List.length_append, hadded]
      split_ifs at honce ⊢ <;> omega
    · intro hbody
      rw [length_fields]
      by_cases hadds : head.AddsLength
      · rw [if_pos hadds, Nat.le_zero, List.length_eq_zero_iff] at honce
        obtain ⟨added, hsome⟩ := Option.isSome_iff_exists.mp hadds.1
        rw [honce, if_neg hadds.2, hsome]
        change [readLength (fieldValue (headerText added.header))] = [some body.length]
        rw [readLength_headerText added.no_colon, hlength added hsome, readLength_decimal]
      · rw [if_neg hadds, List.length_eq_zero_iff] at hadded
        rw [hadded, List.append_nil, heq hbody hadds]

end DumpedHead

/-! ### The heads of requests and responses -/

/-- Bytes that can stand in a header that is added. -/
theorem connectionValue_no_cr (close : Bool) : ∀ c ∈ connectionValue close, c ≠ 13 := by
  cases close <;> exact forall_mem_of_all (by decide)

theorem decimal_no_cr (n : ℕ) : ∀ c ∈ decimal n, c ≠ 13 := by
  rintro c hc rfl
  exact absurd (digit_of_mem_decimal hc).1 (by decide)

/-- Assumes: no carriage return in name and value. There is none in the line. -/
theorem headerText_no_cr {header : List UInt8 × List UInt8} (hname : ∀ c ∈ header.1, c ≠ 13)
    (hvalue : ∀ c ∈ header.2, c ≠ 13) : ∀ c ∈ headerText header, c ≠ 13 := by
  have hcolon : ∀ c ∈ ascii ": ", c ≠ 13 := forall_mem_of_all (by decide)
  intro c hc
  rcases List.mem_append.mp hc with hc | hc
  · rcases List.mem_append.mp hc with hc | hc
    · exact hname c hc
    · exact hcolon c hc
  · exact hvalue c hc

/-- The connection line with its name spelt as given. -/
def connectionHeader (spelling : List UInt8) (hspelling : SameName spelling (ascii "Connection"))
    (hbytes : ∀ c ∈ spelling, c ≠ 58 ∧ c ≠ 13) (close : Bool) :
    AddedHeader (ascii "Connection") where
  header := (spelling, connectionValue close)
  same_name := hspelling
  no_colon := fun c hc ↦ (hbytes c hc).1
  no_cr := headerText_no_cr (fun c hc ↦ (hbytes c hc).2) (connectionValue_no_cr close)

/-- The content length with its name spelt as given. -/
def contentLengthHeader (spelling : List UInt8)
    (hspelling : SameName spelling (ascii "Content-Length"))
    (hbytes : ∀ c ∈ spelling, c ≠ 58 ∧ c ≠ 13) (body : List UInt8) :
    AddedHeader (ascii "Content-Length") where
  header := (spelling, decimal body.length)
  same_name := hspelling
  no_colon := fun c hc ↦ (hbytes c hc).1
  no_cr := headerText_no_cr (fun c hc ↦ (hbytes c hc).2) (decimal_no_cr body.length)

namespace HttpRequest

def startLine (request : HttpRequest) : List UInt8 :=
  ascii (httpMethodToString request.method) ++ ascii " " ++ request.path ++
    (if request.query ≠ [] then ascii "?" ++ request.query else []) ++
    (if request.fragment ≠ [] then ascii "#" ++ request.fragment else []) ++
    ascii " HTTP/" ++ decimal (request.version >>> 4).toNat ++ ascii "." ++
    decimal (request.version &&& 0x0F).toNat

/-- The head of `HttpRequest::dump`: a connection line always, a content length when there is a body
and none in the map. -/
def head (request : HttpRequest) : DumpedHead where
  start := request.startLine
  connection := some (connectionHeader (ascii "connection") (by decide)
    (forall_mem_of_all (by decide)) request.close)
  headers := request.headers.entries
  length :=
    if request.body ≠ [] ∧ request.headers.find (ascii "Content-Length") = none then
      some (contentLengthHeader (ascii "Content-Length") (by decide)
        (forall_mem_of_all (by decide)) request.body)
    else none

theorem dump_eq_head (request : HttpRequest) : request.dump = request.head.text request.body := by
  have hconnection : (if request.close then ascii "connection: close"
      else ascii "connection: keep-alive") =
      headerText (ascii "connection", connectionValue request.close) := by
    cases request.close <;> decide
  have hlength : ascii "Content-Length: " = ascii "Content-Length" ++ ascii ": " := by decide
  rw [dump, DumpedHead.text, hconnection, hlength]
  simp only [head, startLine, connectionHeader, contentLengthHeader, addedLines]
  by_cases hbody : request.body = []
  · simp [hbody, headerText, List.flatMap_map]
  · by_cases hfind : request.headers.find (ascii "Content-Length") = none
    · simp [hbody, hfind, headerText, List.flatMap_map]
    · simp [hbody, hfind, headerText, List.flatMap_map]

end HttpRequest

namespace HttpResponse

def startLine (response : HttpResponse) (reason : String) : List UInt8 :=
  ascii "HTTP/" ++ decimal (response.version >>> 4).toNat ++ ascii "." ++
    decimal (response.version &&& 0x0F).toNat ++ ascii " " ++ decimal response.status ++
    ascii " " ++ ascii reason

/-- The head of `HttpResponse::dump`: a connection line when there is none in the map, a content
length when there is a body. -/
def head (response : HttpResponse) (reason : String) : DumpedHead where
  start := response.startLine reason
  connection :=
    if response.headers.find (ascii "connection") = none then
      some (connectionHeader (ascii "Connection") (by decide)
        (forall_mem_of_all (by decide)) response.close)
    else none
  headers := response.headers.entries
  length :=
    if response.body ≠ [] then
      some (contentLengthHeader (ascii "content-length") (by decide)
        (forall_mem_of_all (by decide)) response.body)
    else none

theorem dump_eq_head (response : HttpResponse) :
    response.dump = (httpStatusToString response.status).map fun reason ↦
      (response.head reason).text response.body := by
  have hconnection : (if response.close then ascii "Connection: close"
      else ascii "Connection: keep-alive") =
      headerText (ascii "Connection", connectionValue response.close) := by
    cases response.close <;> decide
  have hlength : ascii "content-length: " = ascii "content-length" ++ ascii ": " := by decide
  rw [dump, hconnection, hlength]
  refine congrArg (fun write ↦ (httpStatusToString response.status).map write) (funext ?_)
  intro reason
  rw [DumpedHead.text]
  simp only [head, startLine, connectionHeader, contentLengthHeader, addedLines]
  by_cases hbody : response.body = []
  · by_cases hfind : response.headers.find (ascii "connection") = none
    · simp [hbody, hfind, headerText, List.flatMap_map]
    · simp [hbody, hfind, headerText, List.flatMap_map]
  · by_cases hfind : response.headers.find (ascii "connection") = none
    · simp [hbody, hfind, headerText, List.flatMap_map]
    · simp [hbody, hfind, headerText, List.flatMap_map]

end HttpResponse

/-! ### When a peer finds one framing -/

theorem HttpRequest.framedOnce_dump_iff (request : HttpRequest) :
    FramedOnce request.dump request.body ↔ request.head.OwnLinesFit request.body := by
  rw [request.dump_eq_head]
  apply DumpedHead.framedOnce_text_iff
  intro added hadded
  rw [HttpRequest.head] at hadded
  split_ifs at hadded with hbody
  · rw [← Option.mem_some.mp hadded, contentLengthHeader]
  · cases hadded

theorem HttpResponse.framedOnce_text_iff (response : HttpResponse) (reason : String) :
    FramedOnce ((response.head reason).text response.body) response.body ↔
      (response.head reason).OwnLinesFit response.body := by
  apply DumpedHead.framedOnce_text_iff
  intro added hadded
  simp only [HttpResponse.head] at hadded
  split_ifs at hadded with hbody
  · rw [← Option.mem_some.mp hadded, contentLengthHeader]
  · cases hadded

theorem HttpResponse.framedOnce_dump_iff (response : HttpResponse) :
    (∀ text ∈ response.dump, FramedOnce text response.body) ↔
      ∀ reason ∈ httpStatusToString response.status,
        (response.head reason).OwnLinesFit response.body := by
  rw [response.dump_eq_head]
  cases httpStatusToString response.status with
  | none => exact iff_of_true (fun _ hnone ↦ nomatch hnone) fun _ hnone ↦ nomatch hnone
  | some reason =>
    simp only [Option.map_some, Option.mem_some, forall_eq']
    exact response.framedOnce_text_iff reason

/-- A peer that reads the dump of a message finds at most one connection line, at most one content
length, and that of a body that is not empty, exactly when the lines that the message brings itself
fit to those that the dump adds. For a request these are a connection line, and a content length
when there is a body and none in the header map; for a response a connection line when there is none
in the map, and a content length when there is a body. -/
theorem dump_framedOnce_iff (request : HttpRequest) (response : HttpResponse) :
    (FramedOnce request.dump request.body ↔ request.head.OwnLinesFit request.body) ∧
      ((∀ text ∈ response.dump, FramedOnce text response.body) ↔
        ∀ reason ∈ httpStatusToString response.status,
          (response.head reason).OwnLinesFit response.body) :=
  ⟨request.framedOnce_dump_iff, response.framedOnce_dump_iff⟩

/-! ### Messages without line breaks in their parts -/

/-- Headers whose lines are what they look like. -/
structure PlainHeaders (headers : List (List UInt8 × List UInt8)) : Prop where
  names : ∀ header ∈ headers, ∀ c ∈ header.1, c ≠ 58 ∧ c ≠ 13
  values : ∀ header ∈ headers, ∀ c ∈ header.2, c ≠ 13

namespace DumpedHead

variable (head : DumpedHead) {map : MapType}

/-- Assumes: a first line without line break and the plain headers of a map. The lines of a name are
that of the map, if it has one, and nothing comes in front of what the dump adds. -/
theorem plain_head (hstart : ∀ c ∈ head.start, c ≠ 13) (hheaders : head.headers = map.entries)
    (hplain : PlainHeaders map.entries) :
    head.front = [] ∧ [] ∉ head.own ∧ ∀ name,
      (fieldsNamed name head.brought).map (fun line ↦ readLength (fieldValue line)) =
        (map.find name).toList.map readLength := by
  have hfront : head.front = [] := by rw [front, lines_of_no_cr hstart, List.tail_cons]
  have hown : head.own = map.entries.map headerText := by
    rw [own, hheaders, List.map_eq_flatMap]
    apply List.flatMap_congr
    intro header hheader
    exact lines_of_no_cr (headerText_no_cr (fun c hc ↦ (hplain.names header hheader c hc).2)
      (hplain.values header hheader))
  have hnil : [] ∉ head.own := by
    rw [hown]
    intro hmem
    obtain ⟨header, _, hempty⟩ := List.mem_map.mp hmem
    rw [headerText, List.append_eq_nil_iff, List.append_eq_nil_iff] at hempty
    exact absurd hempty.1.2 (by decide)
  refine ⟨hfront, hnil, fun name ↦ ?_⟩
  have hcolon : ∀ header ∈ map.entries, ∀ c ∈ header.1, c ≠ 58 :=
    fun header hheader c hc ↦ (hplain.names header hheader c hc).1
  have hfields : fieldsNamed name head.brought =
      (map.entries.filter fun entry ↦ SameName entry.1 name).map headerText := by
    rw [brought, hfront, List.nil_append, blockOf_of_notMem hnil, hown, fieldsNamed,
      List.filter_map]
    congr 1
    apply List.filter_congr
    exact fun header hheader ↦ isField_headerText (hcolon header hheader) name
  have hvalues : (map.entries.filter fun entry ↦ SameName entry.1 name).map
      (fun header ↦ readLength (fieldValue (headerText header))) =
      (map.entries.filter fun entry ↦ SameName entry.1 name).map
        fun header ↦ readLength header.2 := by
    apply List.map_congr_left
    intro header hheader
    exact readLength_headerText (hcolon header (List.mem_of_mem_filter hheader))
  rw [hfields, List.map_map, ← map.map_filter_rank fun _ ↦ decide_eq_true_iff, List.map_map]
  exact hvalues

/-- Assumes: as above. The lines fit when the map has none of the headers that the dump adds, and
the content length of the body when the dump does not add it. -/
theorem ownLinesFit_plain_iff (hstart : ∀ c ∈ head.start, c ≠ 13)
    (hheaders : head.headers = map.entries) (hplain : PlainHeaders map.entries)
    (body : List UInt8) :
    head.OwnLinesFit body ↔
      (head.connection.isSome → map.find (ascii "Connection") = none) ∧
        (head.length.isSome → map.find (ascii "Content-Length") = none) ∧
        (body ≠ [] → ¬ head.length.isSome →
          (map.find (ascii "Content-Length")).toList.map readLength = [some body.length]) := by
  obtain ⟨hfront, hnil, hvalues⟩ := head.plain_head hstart hheaders hplain
  have hconnection : head.AddsConnection ↔ head.connection.isSome :=
    and_iff_left (hfront ▸ List.not_mem_nil)
  have hlength : head.AddsLength ↔ head.length.isSome := by
    rw [AddsLength, hfront]
    exact and_iff_left hnil
  have hcount (name : List UInt8) (condition : Prop) [Decidable condition] :
      (fieldsNamed name head.brought).length ≤ (if condition then 0 else 1) ↔
        (condition → map.find name = none) := by
    have hlen := congrArg List.length (hvalues name)
    rw [List.length_map, List.length_map] at hlen
    rw [hlen]
    cases map.find name with
    | none => simp
    | some value =>
      by_cases hcondition : condition
      · simp [hcondition]
      · simp [hcondition]
  constructor
  · rintro ⟨honce, hfits, heq⟩
    rw [hcount, hconnection] at honce
    rw [hcount, hlength] at hfits
    rw [hvalues, hlength] at heq
    exact ⟨honce, hfits, heq⟩
  · rintro ⟨honce, hfits, heq⟩
    refine ⟨?_, ?_, ?_⟩
    · rw [hcount, hconnection]
      exact honce
    · rw [hcount, hlength]
      exact hfits
    · rw [hvalues, hlength]
      exact heq

end DumpedHead

namespace HttpRequest

/-- A request without line breaks in its parts. -/
structure Plain (request : HttpRequest) : Prop where
  path : ∀ c ∈ request.path, c ≠ 13
  query : ∀ c ∈ request.query, c ≠ 13
  fragment : ∀ c ∈ request.fragment, c ≠ 13
  headers : PlainHeaders request.headers.entries

theorem Plain.startLine_no_cr {request : HttpRequest} (hplain : request.Plain) :
    ∀ c ∈ request.startLine, c ≠ 13 := by
  have hmethod : ∀ c ∈ ascii (httpMethodToString request.method), c ≠ 13 := by
    cases request.method <;> exact forall_mem_of_all (by decide)
  have hascii : ∀ text ∈ [" ", "?", "#", " HTTP/", "."], ∀ c ∈ ascii text, c ≠ 13 := by
    have hall : ∀ text ∈ [" ", "?", "#", " HTTP/", "."],
        ((ascii text).all fun c ↦ decide (c ≠ 13)) = true := by
      decide
    exact fun text htext ↦ forall_mem_of_all (hall text htext)
  have hquery : ∀ c ∈ (if request.query ≠ [] then ascii "?" ++ request.query else []), c ≠ 13 := by
    intro c hc
    split_ifs at hc
    · exact (List.mem_append.mp hc).elim (hascii "?" (by decide) c) (hplain.query c)
    · cases hc
  have hfragment :
      ∀ c ∈ (if request.fragment ≠ [] then ascii "#" ++ request.fragment else []), c ≠ 13 := by
    intro c hc
    split_ifs at hc
    · exact (List.mem_append.mp hc).elim (hascii "#" (by decide) c) (hplain.fragment c)
    · cases hc
  intro c hc
  simp only [startLine, List.mem_append] at hc
  rcases hc with (((((((hc | hc) | hc) | hc) | hc) | hc) | hc) | hc) | hc
  · exact hmethod c hc
  · exact hascii " " (by decide) c hc
  · exact hplain.path c hc
  · exact hquery c (by simpa using hc)
  · exact hfragment c (by simpa using hc)
  · exact hascii " HTTP/" (by decide) c hc
  · exact decimal_no_cr _ c hc
  · exact hascii "." (by decide) c hc
  · exact decimal_no_cr _ c hc

/-- Assumes: no line breaks in the parts of a request. Its dump has one framing exactly when it has
no connection line of its own, and the content length of its own is that of its body. -/
theorem framedOnce_iff_of_plain {request : HttpRequest} (hplain : request.Plain) :
    FramedOnce request.dump request.body ↔
      request.headers.find (ascii "Connection") = none ∧
        (request.body ≠ [] → ∀ value ∈ request.headers.find (ascii "Content-Length"),
          readLength value = some request.body.length) := by
  have hadds : request.head.length.isSome ↔
      request.body ≠ [] ∧ request.headers.find (ascii "Content-Length") = none :=
    Option.isSome_ite
  have hstart := hplain.startLine_no_cr
  rw [request.framedOnce_dump_iff,
    request.head.ownLinesFit_plain_iff hstart rfl hplain.headers, hadds]
  constructor
  · rintro ⟨hconnection, _, heq⟩
    refine ⟨hconnection rfl, fun hbody value hvalue ↦ ?_⟩
    have hfind : request.headers.find (ascii "Content-Length") = some value := hvalue
    rw [hfind] at heq
    exact List.head_eq_of_cons_eq (heq hbody fun hboth ↦ nomatch hboth.2)
  · rintro ⟨hconnection, heq⟩
    refine ⟨fun _ ↦ hconnection, And.right, fun hbody hadds ↦ ?_⟩
    cases hfind : request.headers.find (ascii "Content-Length") with
    | none => exact absurd ⟨hbody, hfind⟩ hadds
    | some value => exact congrArg (fun read ↦ [read]) (heq hbody value hfind)

end HttpRequest

/-- A reason phrase has no line break. -/
theorem reason_no_cr {status : ℕ} {reason : String}
    (hreason : httpStatusToString status = some reason) : ∀ c ∈ ascii reason, c ≠ 13 := by
  revert hreason
  fun_cases httpStatusToString status <;> intro hreason <;> cases hreason <;>
    exact forall_mem_of_all (by decide)

namespace HttpResponse

theorem startLine_no_cr {response : HttpResponse} {reason : String}
    (hreason : httpStatusToString response.status = some reason) :
    ∀ c ∈ response.startLine reason, c ≠ 13 := by
  have hascii : ∀ text ∈ ["HTTP/", ".", " "], ∀ c ∈ ascii text, c ≠ 13 := by
    have hall : ∀ text ∈ ["HTTP/", ".", " "],
        ((ascii text).all fun c ↦ decide (c ≠ 13)) = true := by
      decide
    exact fun text htext ↦ forall_mem_of_all (hall text htext)
  intro c hc
  simp only [startLine, List.mem_append] at hc
  rcases hc with ((((((hc | hc) | hc) | hc) | hc) | hc) | hc) | hc
  · exact hascii "HTTP/" (by decide) c hc
  · exact decimal_no_cr _ c hc
  · exact hascii "." (by decide) c hc
  · exact decimal_no_cr _ c hc
  · exact hascii " " (by decide) c hc
  · exact decimal_no_cr _ c hc
  · exact hascii " " (by decide) c hc
  · exact reason_no_cr hreason c hc

/-- Assumes: no line breaks in the header map of a response. Its dump has one framing exactly when
it has no body or no content length of its own. -/
theorem framedOnce_iff_of_plain {response : HttpResponse} {text : List UInt8}
    (hplain : PlainHeaders response.headers.entries) (hdump : response.dump = some text) :
    FramedOnce text response.body ↔
      (response.body ≠ [] → response.headers.find (ascii "Content-Length") = none) := by
  rw [response.dump_eq_head, Option.map_eq_some_iff] at hdump
  obtain ⟨reason, hreason, rfl⟩ := hdump
  have hconnection : (response.head reason).connection.isSome ↔
      response.headers.find (ascii "connection") = none := Option.isSome_ite
  have hsame : response.headers.find (ascii "connection") =
      response.headers.find (ascii "Connection") := response.headers.find_congr (by decide)
  have hadds : (response.head reason).length.isSome ↔ response.body ≠ [] := Option.isSome_ite
  have hstart := startLine_no_cr hreason
  rw [response.framedOnce_text_iff,
    (response.head reason).ownLinesFit_plain_iff hstart rfl hplain, hconnection, hadds,
    hsame]
  exact ⟨fun hfits ↦ hfits.2.1, fun hfits ↦ ⟨id, hfits, fun hbody hnone ↦ absurd hbody hnone⟩⟩

end HttpResponse

/-! ### A header of its own beside one that is added -/

/-- A request that carries `Connection: keep-alive`, as one that was parsed may. -/
def keptAlive : HttpRequest := HttpRequest.init.setHeader (ascii "Connection") (ascii "keep-alive")

/-- A response with a body of two bytes and its content length in the header map. -/
def counted : HttpResponse :=
  (HttpResponse.init.setHeader (ascii "Content-Length") (ascii "2")).setBody (ascii "hi")

theorem keptAlive_counted_not_framedOnce :
    ¬ FramedOnce keptAlive.dump keptAlive.body ∧
      ¬ ∀ text ∈ counted.dump, FramedOnce text counted.body := by
  refine ⟨fun hframed ↦ ?_, fun hframed ↦ ?_⟩
  · have honce := hframed.connection_once
    revert honce
    decide
  · have hstatus : counted.status = 200 := rfl
    have hreason : httpStatusToString counted.status = some "OK" := by
      rw [hstatus]
      rfl
    have honce := (counted.framedOnce_dump_iff.mp hframed "OK" hreason).length_once
    revert honce
    decide

end Cczoe.Http
