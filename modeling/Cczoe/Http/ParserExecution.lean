import Cczoe.Http.ParserTransitions
import Cczoe.Foundations.EarlyReturns

/-!
# `http_parser_execute`

The loop over a buffer. A pointer into the buffer is the list of the bytes from there on, and a mark
is such a pointer, set where an element begins. `pass` is one way through the `switch`, `passes`
goes on while a state ends with `REEXECUTE()`, and `loop` takes the next byte.

`nread` counts the bytes of a head in a `uint32_t`, which wraps around (`sourceCounter`). The run is
written over any `HeaderCounter`, so that it can be compared with one that counts without a limit.

An outcome is `none` when an assertion fails or the bounds on the number of passes and of turns of
the loop do not suffice. `ParserSafety` shows that this never happens.
-/

set_option autoImplicit false
set_option relaxedAutoImplicit false

namespace Cczoe.Http

open Foundations

/-! ### The loops inside a state -/

/-- How the loop of `case s_header_field` ends: at a byte that is no token character, or behind the
last byte. -/
inductive FieldEnd
  | stopped (at_ : List UInt8) (parser : Parser)
  | ended (parser : Parser)

/-- The loop of `case s_header_field`. Its own loop for `h_general`, which looks ahead for the next
byte that is no token character, finds what this one finds. -/
def fieldLoop : List UInt8 → Parser → Option FieldEnd
  | [], parser => some (.ended parser)
  | ch :: rest, parser =>
    match token ch with
    | none => some (.stopped (ch :: rest) parser)
    | some c =>
      match parser.fieldStep ch c with
      | none => none
      | some next => fieldLoop rest next

/-- How the loop of `case s_header_value` ends: at a line break, behind the last byte, or with an
error. -/
inductive ValueEnd
  | lineBreak (at_ : List UInt8) (h : HeaderState) (parser : Parser)
  | ended (h : HeaderState) (parser : Parser)
  | failed (at_ : List UInt8) (parser : Parser) (errno : HttpErrno)

/-- The loop of `case s_header_value`. `inner` is the number of bytes that the loop for `h_general`
may still take, when it runs. When it has taken all it may and bytes are left, the outer loop steps
over one byte that nobody has looked at. -/
def valueLoop : List UInt8 → Option ℕ → HeaderState → Parser → Option ValueEnd
  | [], _, h, parser => some (.ended h parser)
  | _ :: rest, some 0, h, parser => valueLoop rest none h parser
  | ch :: rest, some (left + 1), h, parser =>
    if ch = 13 ∨ ch = 10 then some (.lineBreak (ch :: rest) h parser)
    else if parser.lenientHttpHeaders = false ∧ isHeaderChar ch = false then
      some (.failed (ch :: rest) parser .invalidHeaderToken)
    else valueLoop rest (some left) h parser
  | ch :: rest, none, h, parser =>
    if ch = 13 ∨ ch = 10 then some (.lineBreak (ch :: rest) h parser)
    else if parser.lenientHttpHeaders = false ∧ isHeaderChar ch = false then
      some (.failed (ch :: rest) parser .invalidHeaderToken)
    else if h = .general then
      valueLoop rest (some (min (rest.length + 1) maxHeaderSize - 1)) .general parser
    else
      match parser.valueStep ch h with
      | .going h' parser' => valueLoop rest none h' parser'
      | .fail h' parser' errno =>
        some (.failed (ch :: rest) { parser' with headerState := h' } errno)
      | .assertion => none

/-! ### The count of header bytes -/

/-- How a counter holds a number of header bytes: up to the limit as it is. -/
class HeaderCounter where
  hold : ℕ → ℕ
  hold_of_le {n : ℕ} (hle : n ≤ maxHeaderSize) : hold n = n

@[simp] theorem HeaderCounter.hold_one [HeaderCounter] : HeaderCounter.hold 1 = 1 :=
  HeaderCounter.hold_of_le (by decide)

/-- The `uint32_t` of `http_parser_execute`, which wraps around. -/
instance (priority := low) sourceCounter : HeaderCounter where
  hold n := n % 2 ^ 32
  hold_of_le hle := Nat.mod_eq_of_lt (hle.trans_lt (by decide))

/-! ### The run over a buffer -/

/-- The local variables of `http_parser_execute` and what its callbacks work on. -/
structure Exec (σ : Type) where
  parser : Parser
  marks : Element → Option (List UInt8)
  user : σ

/-- What `http_parser_execute` returns and leaves. -/
structure Returned (σ : Type) where
  nparsed : ℕ
  parser : Parser
  user : σ

/-- A part of the body of `http_parser_execute`. -/
abbrev ParseM (σ : Type) := Early (Returned σ)

/-- How one way through the `switch` ends: with the bytes behind those it took, or to be gone
through again at a byte. -/
inductive Next (σ : Type)
  | advance (rest : List UInt8) (e : Exec σ)
  | reexecute (at_ : List UInt8) (ch : UInt8) (e : Exec σ)

def Element.callback (element : Element) (parser : Parser) (at_ : List UInt8) : Callback :=
  match element with
  | .headerField => .headerField at_
  | .headerValue => .headerValue at_
  | .url => .url at_
  | .body => .body at_
  | .status => .status at_ parser.statusCode

def Element.errno : Element → HttpErrno
  | .headerField => .cbHeaderField
  | .headerValue => .cbHeaderValue
  | .url => .cbUrl
  | .body => .cbBody
  | .status => .cbStatus

def Notification.callback : Notification → Callback
  | .messageBegin => .messageBegin
  | .messageComplete => .messageComplete
  | .chunkHeader => .chunkHeader
  | .chunkComplete => .chunkComplete

def Notification.errno : Notification → HttpErrno
  | .messageBegin => .cbMessageBegin
  | .messageComplete => .cbMessageComplete
  | .chunkHeader => .cbChunkHeader
  | .chunkComplete => .cbChunkComplete

/-- The bytes from a mark up to a pointer behind it. -/
def marked (mark stop : List UInt8) : List UInt8 := mark.take (mark.length - stop.length)

section Executing

variable {σ : Type} (settings : Callback → σ → ℕ × σ)

/-- `RETURN(nparsed)`. -/
def Exec.exit {α : Type} (e : Exec σ) (nparsed : ℕ) : ParseM σ α :=
  .error (.returned ⟨nparsed, e.parser, e.user⟩)

/-- `SET_ERRNO(errno)`, then a return. -/
def Exec.fail {α : Type} (e : Exec σ) (errno : HttpErrno) (nparsed : ℕ) : ParseM σ α :=
  .error (.returned ⟨nparsed, { e.parser with httpErrno := errno }, e.user⟩)

/-- A callback, which stops the run with an error number when it does not return zero. -/
def Exec.call (e : Exec σ) (callback : Callback) (errno : HttpErrno) (nparsed : ℕ) :
    ParseM σ (Exec σ) :=
  if e.parser.httpErrno ≠ .ok then .error .stuck
  else
    let called := settings callback e.user
    if called.1 ≠ 0 then { e with user := called.2 }.fail errno nparsed
    else .ok { e with user := called.2 }

/-- `MARK(element)`. -/
def Exec.mark (e : Exec σ) (element : Element) (at_ : List UInt8) : Exec σ :=
  if (e.marks element).isNone then
    { e with marks := Function.update e.marks element (some at_) }
  else e

/-- `CALLBACK_DATA_(element, length, nparsed)` for the bytes from the mark up to `stop`. -/
def Exec.report (e : Exec σ) (element : Element) (stop : List UInt8) (nparsed : ℕ) :
    ParseM σ (Exec σ) :=
  if e.parser.httpErrno ≠ .ok then .error .stuck
  else
    match e.marks element with
    | none => .ok e
    | some mark => do
      let e ← e.call settings (element.callback e.parser (marked mark stop)) element.errno nparsed
      return { e with marks := Function.update e.marks element none }

/-- `COUNT_HEADER_SIZE(count)`. -/
def Exec.countHeaderSize [HeaderCounter] (e : Exec σ) (count nparsed : ℕ) : ParseM σ (Exec σ) :=
  let e := { e with
    parser := { e.parser with nread := HeaderCounter.hold (e.parser.nread + count) } }
  if maxHeaderSize < e.parser.nread then e.fail .headerOverflow nparsed else .ok e

/-- The callback `on_headers_complete`, which may say that no body follows. -/
def Exec.headersComplete (e : Exec σ) (nparsed : ℕ) : ParseM σ (Exec σ) :=
  let called := settings
    (.headersComplete e.parser.httpMajor e.parser.httpMinor e.parser.method) e.user
  let skipping : Parser :=
    { e.parser with flags := { e.parser.flags with skipbody := true } }
  match called.1 with
  | 0 => .ok { e with user := called.2 }
  | 1 => .ok { e with user := called.2, parser := skipping }
  | 2 => .ok { e with user := called.2, parser := { skipping with upgrade := true } }
  | _ => { e with user := called.2 }.fail .cbHeadersComplete nparsed

/-- The number of bytes in front of a pointer, in a buffer of `len` bytes. -/
def offset (len : ℕ) (at_ : List UInt8) : ℕ := len - at_.length

variable (len : ℕ)

/-- One macro of a state, at the byte that `at_` points to. -/
def Exec.act (e : Exec σ) (at_ : List UInt8) : Act → ParseM σ (Exec σ)
  | .mark element => .ok (e.mark element at_)
  | .data element consume =>
    e.report settings element at_ (offset len at_ + if consume then 1 else 0)
  | .notify notification consume =>
    e.call settings notification.callback notification.errno
      (offset len at_ + if consume then 1 else 0)
  | .headersComplete => e.headersComplete settings (offset len at_)

/-- The macros of a state and how it ends. -/
def Exec.perform (e : Exec σ) (at_ : List UInt8) (ch : UInt8) (reaction : Reaction) :
    ParseM σ (Next σ) := do
  let e ← reaction.acts.foldlM (fun e act ↦ e.act settings len at_ act)
    { e with parser := reaction.parser }
  match reaction.flow with
  | .next => return .advance at_.tail e
  | .reexecute => return .reexecute at_ ch e
  | .fail errno => e.fail errno (offset len at_)
  | .exit => e.exit (offset len at_ + 1)
  | .assertion => .error .stuck

/-- `case s_header_field`. -/
def Exec.headerField [HeaderCounter] (e : Exec σ) (start : List UInt8) : ParseM σ (Next σ) :=
  match fieldLoop start e.parser with
  | none => .error .stuck
  | some (.ended parser) => do
    let e ← { e with parser := parser }.countHeaderSize (start.length - 1) (len - 1)
    return .advance [] e
  | some (.stopped at_ parser) => do
    let e ← { e with parser := parser }.countHeaderSize (start.length - at_.length)
      (offset len at_)
    if at_.head? = some 58 then
      let e ← { e with parser := { e.parser with state := .headerValueDiscardWs } }.report
        settings .headerField at_ (offset len at_ + 1)
      return .advance at_.tail e
    else e.fail .invalidHeaderToken (offset len at_)

/-- `case s_header_value`. -/
def Exec.headerValue [HeaderCounter] (e : Exec σ) (start : List UInt8) : ParseM σ (Next σ) :=
  match valueLoop start none e.parser.headerState e.parser with
  | none => .error .stuck
  | some (.ended h parser) => do
    let e ← { e with parser := { parser with headerState := h } }.countHeaderSize
      (start.length - 1) (len - 1)
    return .advance [] e
  | some (.failed at_ parser errno) => { e with parser := parser }.fail errno (offset len at_)
  | some (.lineBreak at_ h parser) => do
    let done := { e with
      parser := { parser with state := .headerAlmostDone, headerState := h } }
    if at_.head? = some 13 then
      let e ← done.report settings .headerValue at_ (offset len at_ + 1)
      let e ← e.countHeaderSize (start.length - at_.length) (offset len at_)
      return .advance at_.tail e
    else
      -- the count runs before the header state is stored, which a failure leaves as it was
      let e ← { e with parser := { parser with state := .headerAlmostDone } }.countHeaderSize
        (start.length - at_.length) (offset len at_)
      let e ← { e with parser := { e.parser with headerState := h } }.report settings .headerValue
        at_ (offset len at_)
      return .reexecute at_ 10 e

/-- An assertion that the rest of the body has a length. -/
def Exec.assertLength (e : Exec σ) : ParseM σ Unit :=
  if e.parser.contentLength ≠ 0 ∧ e.parser.contentLength ≠ ullongMax then .ok ()
  else .error .stuck

/-- `case s_body_identity`. -/
def Exec.bodyIdentity (e : Exec σ) (at_ : List UInt8) (ch : UInt8) : ParseM σ (Next σ) := do
  let toRead := min e.parser.contentLength at_.length
  e.assertLength
  let e := e.mark .body at_
  let left := e.parser.contentLength - toRead
  if left = 0 then
    -- the last byte of the body is seen again, in `s_message_done`
    let last := at_.drop (toRead - 1)
    let e ← { e with
      parser := { e.parser with contentLength := left, state := .messageDone } }.report settings
        .body last.tail (offset len last)
    return .reexecute last ch e
  else
    return .advance (at_.drop toRead) { e with parser := { e.parser with contentLength := left } }

/-- `case s_chunk_data`. -/
def Exec.chunkData (e : Exec σ) (at_ : List UInt8) : ParseM σ (Next σ) :=
  let toRead := min e.parser.contentLength at_.length
  if e.parser.flags.chunked = false then .error .stuck
  else do
    e.assertLength
    let e := e.mark .body at_
    let left := e.parser.contentLength - toRead
    let parser := { e.parser with contentLength := left }
    return .advance (at_.drop toRead) { e with
      parser := if left = 0 then { parser with state := .chunkDataAlmostDone } else parser }

/-- One way through the `switch`. -/
def Exec.pass [HeaderCounter] (e : Exec σ) (at_ : List UInt8) (ch : UInt8) : ParseM σ (Next σ) :=
  match e.parser.state with
  | .headerField => e.headerField settings len at_
  | .headerValue => e.headerValue settings len at_
  | .bodyIdentity => e.bodyIdentity settings len at_ ch
  | .bodyIdentityEof => .ok (.advance [] (e.mark .body at_))
  | .chunkData => e.chunkData at_
  | _ => e.perform settings len at_ ch (e.parser.react ch)

/-- Ways through the `switch`, while `REEXECUTE()` asks for another. -/
def passes [HeaderCounter] : ℕ → Exec σ → List UInt8 → UInt8 → ParseM σ (List UInt8 × Exec σ)
  | 0, _, _, _ => .error .stuck
  | fuel + 1, e, at_, ch => do
    match ← e.pass settings len at_ ch with
    | .advance rest e => return (rest, e)
    | .reexecute at_ ch e => passes fuel e at_ ch

/-- The count of a byte in front of the `switch`. -/
def Exec.countByte [HeaderCounter] (e : Exec σ) (at_ : List UInt8) : ParseM σ (Exec σ) :=
  if e.parser.state.parsingHeader then e.countHeaderSize 1 (offset len at_) else .ok e

/-- The loop over the bytes. No state asks for more than four passes. -/
def loop [HeaderCounter] : ℕ → List UInt8 → Exec σ → ParseM σ (Exec σ)
  | _, [], e => .ok e
  | 0, _ :: _, _ => .error .stuck
  | fuel + 1, ch :: rest, e => do
    let e ← e.countByte len (ch :: rest)
    let after ← passes settings len 4 e (ch :: rest) ch
    loop fuel after.1 after.2

/-- The element whose mark a buffer begins with in a state. -/
def openElement : ParserState → Option Element
  | .headerField => some .headerField
  | .headerValue => some .headerValue
  | .reqUrl .dead | .reqUrl .spacesBeforeUrl => none
  | .reqUrl _ => some .url
  | .resStatus => some .status
  | _ => none

def startMarks (state : ParserState) (data : List UInt8) (element : Element) :
    Option (List UInt8) :=
  if openElement state = some element then some data else none

/-- The elements, in the order in which their marks are looked at. -/
def elements : List Element := [.headerField, .headerValue, .url, .body, .status]

/-- The number of marks that are set. -/
def markCount (marks : Element → Option (List UInt8)) : ℕ :=
  elements.countP fun element ↦ (marks element).isSome

/-- What `http_parser_execute` does behind its loop: the elements that go on in the next buffer are
reported as far as they are known. -/
def Exec.flush (e : Exec σ) : ParseM σ (Exec σ) :=
  if 1 < markCount e.marks then .error .stuck
  else elements.foldlM (fun e element ↦ e.report settings element [] len) e

/-- An empty buffer, which tells the parser that the stream has ended. -/
def Exec.endOfStream (e : Exec σ) : ParseM σ (Exec σ) :=
  match e.parser.state with
  | .bodyIdentityEof => do
    let e ← e.call settings .messageComplete .cbMessageComplete 0
    e.exit 0
  | .dead | .startRes | .startReq => e.exit 0
  | _ => e.fail .invalidEofState 1

/-- The body of `http_parser_execute`, every way out of which is a return. -/
def executeBody [HeaderCounter] (data : List UInt8) (parser : Parser) (user : σ) :
    ParseM σ (Exec σ) :=
  let e : Exec σ := ⟨parser, startMarks parser.state data, user⟩
  if parser.httpErrno ≠ .ok then e.exit 0
  else if data = [] then e.endOfStream settings
  else do
    let e ← loop settings data.length data.length data e
    let e ← e.flush settings data.length
    e.exit data.length

/-- `http_parser_execute`. -/
def httpParserExecute [HeaderCounter] (data : List UInt8) (parser : Parser) (user : σ) :
    Option (Returned σ) :=
  match executeBody settings data parser user with
  | .error (.returned result) => some result
  | .error .stuck | .ok _ => none

end Executing

end Cczoe.Http
