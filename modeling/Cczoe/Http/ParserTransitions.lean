import Mathlib.Algebra.Group.Nat.Defs
import Cczoe.Http.DumpRoundTrip

/-!
# The transitions of the vendored parser

`http_parser_execute` is a loop around one `switch` over the state of the parser. `react` is that
switch for the states that look at one byte: the fields of `http_parser` they leave (`Parser`), the
macros they run (`Act`) and how they end (`Flow`). The states with a loop of their own, the header
field, the header value and the body, have their bodies here (`fieldStep`, `valueStep`) and their
loops in `ParserExecution`.

The parser is compiled in strict mode, as `HTTP_PARSER_STRICT` is by default. `HTTP_BOTH` is left
out, which `HttpParser.cpp` never passes.
-/

set_option autoImplicit false
set_option relaxedAutoImplicit false

namespace Cczoe.Http

/-! ### The fields of `http_parser` -/

/-- `enum http_parser_type`. -/
inductive ParserType
  | request
  | response
  deriving DecidableEq, Repr

/-- `enum flags`, one member for every bit. -/
structure Flags where
  chunked : Bool := false
  connectionKeepAlive : Bool := false
  connectionClose : Bool := false
  connectionUpgrade : Bool := false
  trailing : Bool := false
  upgrade : Bool := false
  skipbody : Bool := false
  contentlength : Bool := false
  deriving DecidableEq, Repr

/-- `enum state`. The states of a URL are those of `parse_url_char`. -/
inductive ParserState
  | dead
  | startRes | resH | resHT | resHTT | resHTTP | resHttpMajor | resHttpDot | resHttpMinor
  | resHttpEnd | resFirstStatusCode | resStatusCode | resStatusStart | resStatus
  | resLineAlmostDone
  | startReq | reqMethod
  | reqUrl (s : UrlState)
  | reqHttpStart | reqHttpH | reqHttpHT | reqHttpHTT | reqHttpHTTP | reqHttpI | reqHttpIC
  | reqHttpMajor | reqHttpDot | reqHttpMinor | reqHttpEnd | reqLineAlmostDone
  | headerFieldStart | headerField | headerValueDiscardWs | headerValueDiscardWsAlmostDone
  | headerValueDiscardLws | headerValueStart | headerValue | headerValueLws | headerAlmostDone
  | chunkSizeStart | chunkSize | chunkParameters | chunkSizeAlmostDone
  | headersAlmostDone | headersDone
  | chunkData | chunkDataAlmostDone | chunkDataDone
  | bodyIdentity | bodyIdentityEof
  | messageDone
  deriving DecidableEq, Repr

/-- `enum header_states`. -/
inductive HeaderState
  | general | c | co | con
  | matchingConnection | matchingProxyConnection | matchingContentLength
  | matchingTransferEncoding | matchingUpgrade
  | connection | contentLength | contentLengthNum | contentLengthWs | transferEncoding | upgrade
  | matchingTransferEncodingTokenStart | matchingTransferEncodingChunked
  | matchingTransferEncodingToken
  | matchingConnectionTokenStart | matchingConnectionKeepAlive | matchingConnectionClose
  | matchingConnectionUpgrade | matchingConnectionToken
  | transferEncodingChunked | connectionKeepAlive | connectionClose | connectionUpgrade
  deriving DecidableEq, Repr

/-- `enum http_errno`. -/
inductive HttpErrno
  | ok
  | cbMessageBegin | cbUrl | cbHeaderField | cbHeaderValue | cbHeadersComplete | cbBody
  | cbMessageComplete | cbStatus | cbChunkHeader | cbChunkComplete
  | invalidEofState | headerOverflow | closedConnection | invalidVersion | invalidStatus
  | invalidMethod | invalidUrl | invalidHost | invalidPort | invalidPath | invalidQueryString
  | invalidFragment | lfExpected | invalidHeaderToken | invalidContentLength
  | unexpectedContentLength | invalidChunkSize | invalidConstant | invalidInternalState | strict
  | paused | unknown | invalidTransferEncoding
  deriving DecidableEq, Repr

/-- `struct http_parser`. While `http_parser_execute` runs, `state` and `nread` stand for its local
copies `p_state` and `nread`, which it writes back on every way out. -/
structure Parser where
  type : ParserType
  flags : Flags := {}
  state : ParserState
  headerState : HeaderState := .general
  index : ℕ := 0
  usesTransferEncoding : Bool := false
  allowChunkedLength : Bool := false
  lenientHttpHeaders : Bool := false
  nread : ℕ := 0
  contentLength : ℕ := 0
  httpMajor : ℕ := 0
  httpMinor : ℕ := 0
  statusCode : ℕ := 0
  method : HttpMethod := .DELETE
  httpErrno : HttpErrno := .ok
  upgrade : Bool := false
  deriving DecidableEq, Repr

/-- `http_parser_init`. -/
def Parser.init : ParserType → Parser
  | .request => { type := .request, state := .startReq }
  | .response => { type := .response, state := .startRes }

/-- `HTTP_MAX_HEADER_SIZE`. -/
def maxHeaderSize : ℕ := 80 * 1024

/-- `ULLONG_MAX`, the content length of a message without one. -/
def ullongMax : ℕ := 2 ^ 64 - 1

/-- `PARSING_HEADER`. -/
def ParserState.parsingHeader : ParserState → Bool
  | .chunkData | .chunkDataAlmostDone | .chunkDataDone | .bodyIdentity | .bodyIdentityEof
  | .messageDone => false
  | _ => true

/-! ### Characters -/

/-- `LOWER`. -/
def lowerChar (ch : UInt8) : UInt8 := ch ||| 0x20

/-- `TOKEN`: the lower-case form of a token character. -/
def token (ch : UInt8) : Option UInt8 := if isTokenChar ch then some (toLower ch) else none

/-- `IS_HEADER_CHAR`. -/
def isHeaderChar (ch : UInt8) : Bool :=
  ch == 13 || ch == 10 || ch == 9 || (31 < ch && ch != 127)

/-- `unhex`. The table gives its first 128 entries only, so that the others are zero. -/
def unhex (ch : UInt8) : Option ℕ :=
  if 48 ≤ ch ∧ ch ≤ 57 then some (ch.toNat - 48)
  else if 65 ≤ ch ∧ ch ≤ 70 then some (ch.toNat - 55)
  else if 97 ≤ ch ∧ ch ≤ 102 then some (ch.toNat - 87)
  else if 128 ≤ ch then some 0
  else none

/-- The letters of a method, `method_strings`. -/
def methodString (method : HttpMethod) : List UInt8 := ascii (httpMethodToString method)

/-! ### What a state does -/

/-- The elements whose bytes are reported, each with a mark of its own. -/
inductive Element
  | headerField
  | headerValue
  | url
  | body
  | status
  deriving DecidableEq, Repr

/-- The callbacks without data that `CALLBACK_NOTIFY` runs. -/
inductive Notification
  | messageBegin
  | messageComplete
  | chunkHeader
  | chunkComplete
  deriving DecidableEq, Repr

/-- The macros of a state, in the order in which it runs them. `consume` tells `CALLBACK_DATA` from
`CALLBACK_DATA_NOADVANCE`, and `CALLBACK_NOTIFY` from `CALLBACK_NOTIFY_NOADVANCE`. -/
inductive Act
  | mark (element : Element)
  | data (element : Element) (consume : Bool)
  | notify (notification : Notification) (consume : Bool)
  | headersComplete
  deriving DecidableEq, Repr

/-- How a state ends: with `break`, with `REEXECUTE()`, at the label `error`, by `RETURN` behind the
byte, or at a failed assertion. -/
inductive Flow
  | next
  | reexecute
  | fail (errno : HttpErrno)
  | exit
  | assertion
  deriving DecidableEq, Repr

structure Reaction where
  parser : Parser
  acts : List Act
  flow : Flow
  deriving DecidableEq, Repr

namespace Parser

variable (p : Parser)

/-- `UPDATE_STATE(state); break;`. -/
def goTo (state : ParserState) : Reaction := ⟨{ p with state := state }, [], .next⟩

/-- `break;`. -/
def stay : Reaction := ⟨p, [], .next⟩

/-- `SET_ERRNO(errno); goto error;`. -/
def failWith (errno : HttpErrno) : Reaction := ⟨p, [], .fail errno⟩

/-- `UPDATE_STATE(state); REEXECUTE();`. -/
def retryIn (state : ParserState) : Reaction := ⟨{ p with state := state }, [], .reexecute⟩

/-- `STRICT_CHECK(ch != expected); UPDATE_STATE(state); break;`. -/
def expect (ch expected : UInt8) (state : ParserState) : Reaction :=
  if ch ≠ expected then p.failWith .strict else p.goTo state

/-- `http_message_needs_eof`. -/
def messageNeedsEof : Bool :=
  if p.type = .request then false
  else if p.statusCode / 100 = 1 ∨ p.statusCode = 204 ∨ p.statusCode = 304 ∨ p.flags.skipbody then
    false
  else if p.usesTransferEncoding ∧ p.flags.chunked = false then true
  else if p.flags.chunked ∨ p.contentLength ≠ ullongMax then false
  else true

/-- `http_should_keep_alive`. -/
def shouldKeepAlive : Bool :=
  if 0 < p.httpMajor ∧ 0 < p.httpMinor then
    if p.flags.connectionClose then false else !p.messageNeedsEof
  else
    if p.flags.connectionKeepAlive = false then false else !p.messageNeedsEof

/-- `start_state`. -/
def startState : ParserState := if p.type = .request then .startReq else .startRes

/-- `NEW_MESSAGE()`. -/
def newMessage : ParserState := if p.shouldKeepAlive then p.startState else .dead

/-- `UPDATE_STATE(NEW_MESSAGE()); CALLBACK_NOTIFY(message_complete);`, and then how the state
ends. -/
def complete (flow : Flow) : Reaction :=
  ⟨{ p with state := p.newMessage }, [.notify .messageComplete true], flow⟩

/-- The fields that a first byte of a message sets back. -/
def begun : Parser :=
  { p with flags := {}, usesTransferEncoding := false, contentLength := ullongMax }

/-! ### The request line -/

/-- The method that a request may have by its first letter. -/
def firstMethod (ch : UInt8) : Option HttpMethod :=
  if ch = 65 then some .ACL
  else if ch = 66 then some .BIND
  else if ch = 67 then some .CONNECT
  else if ch = 68 then some .DELETE
  else if ch = 71 then some .GET
  else if ch = 72 then some .HEAD
  else if ch = 76 then some .LOCK
  else if ch = 77 then some .MKCOL
  else if ch = 78 then some .NOTIFY
  else if ch = 79 then some .OPTIONS
  else if ch = 80 then some .POST
  else if ch = 82 then some .REPORT
  else if ch = 83 then some .SUBSCRIBE
  else if ch = 84 then some .TRACE
  else if ch = 85 then some .UNLOCK
  else none

/-- The method that another letter at an index makes of a method. -/
def otherMethod (method : HttpMethod) (index : ℕ) (ch : UInt8) : Option HttpMethod :=
  match method, index, ch with
  | .POST, 1, 85 => some .PUT
  | .POST, 1, 65 => some .PATCH
  | .POST, 1, 82 => some .PROPFIND
  | .PUT, 2, 82 => some .PURGE
  | .CONNECT, 1, 72 => some .CHECKOUT
  | .CONNECT, 2, 80 => some .COPY
  | .MKCOL, 1, 79 => some .MOVE
  | .MKCOL, 1, 69 => some .MERGE
  | .MKCOL, 1, 45 => some .MSEARCH
  | .MKCOL, 2, 65 => some .MKACTIVITY
  | .MKCOL, 3, 65 => some .MKCALENDAR
  | .SUBSCRIBE, 1, 69 => some .SEARCH
  | .SUBSCRIBE, 1, 79 => some .SOURCE
  | .REPORT, 2, 66 => some .REBIND
  | .PROPFIND, 4, 80 => some .PROPPATCH
  | .LOCK, 1, 73 => some .LINK
  | .UNLOCK, 2, 83 => some .UNSUBSCRIBE
  | .UNLOCK, 2, 66 => some .UNBIND
  | .UNLOCK, 3, 73 => some .UNLINK
  | _, _, _ => none

/-- `case s_start_req`. -/
def startReq (ch : UInt8) : Reaction :=
  if ch = 13 ∨ ch = 10 then p.stay
  else if isAlpha ch = false then p.begun.failWith .invalidMethod
  else
    match firstMethod ch with
    | none => { p.begun with method := .DELETE, index := 1 }.failWith .invalidMethod
    | some method =>
      ⟨{ p.begun with method := method, index := 1, state := .reqMethod },
        [.notify .messageBegin true], .next⟩

/-- `case s_req_method`. The matcher is read at an index up to the zero behind its letters. -/
def reqMethod (ch : UInt8) : Reaction :=
  let matcher := methodString p.method
  if ch = 0 then p.failWith .invalidMethod
  else if matcher.length < p.index then ⟨p, [], .assertion⟩
  else if ch = 32 ∧ p.index = matcher.length then
    { p with index := p.index + 1 }.goTo (.reqUrl .spacesBeforeUrl)
  else if ch = matcher.getD p.index 0 then { p with index := p.index + 1 }.stay
  else if (65 ≤ ch ∧ ch ≤ 90) ∨ ch = 45 then
    match otherMethod p.method p.index ch with
    | some method => { p with method := method, index := p.index + 1 }.stay
    | none => p.failWith .invalidMethod
  else p.failWith .invalidMethod

/-- `UPDATE_STATE(parse_url_char(CURRENT_STATE(), ch))`, with the check behind it. -/
def urlChar (s : UrlState) (ch : UInt8) (acts : List Act) : Reaction :=
  if parseUrlChar s ch = .dead then ⟨{ p with state := .dead }, acts, .fail .invalidUrl⟩
  else ⟨{ p with state := .reqUrl (parseUrlChar s ch) }, acts, .next⟩

/-- The states of a URL. -/
def reqUrl (s : UrlState) (ch : UInt8) : Reaction :=
  match s with
  | .dead => ⟨p, [], .assertion⟩
  | .spacesBeforeUrl =>
    if ch = 32 then p.stay
    else p.urlChar (if p.method = .CONNECT then .serverStart else .spacesBeforeUrl) ch [.mark .url]
  | .schema | .schemaSlash | .schemaSlashSlash | .serverStart =>
    if ch = 32 ∨ ch = 13 ∨ ch = 10 then p.failWith .invalidUrl else p.urlChar s ch []
  | .server | .serverWithAt | .path | .queryStringStart | .queryString | .fragmentStart
  | .fragment =>
    if ch = 32 then ⟨{ p with state := .reqHttpStart }, [.data .url true], .next⟩
    else if ch = 13 ∨ ch = 10 then
      ⟨{ p with
          httpMajor := 0
          httpMinor := 9
          state := if ch = 13 then .reqLineAlmostDone else .headerFieldStart },
        [.data .url true], .next⟩
    else p.urlChar s ch []

/-- `case s_req_http_start`. -/
def reqHttpStart (ch : UInt8) : Reaction :=
  if ch = 32 then p.stay
  else if ch = 72 then p.goTo .reqHttpH
  else if ch = 73 ∧ p.method = .SOURCE then p.goTo .reqHttpI
  else p.failWith .invalidConstant

/-- A digit of the version. -/
def versionDigit (ch : UInt8) (store : ℕ → Parser) (state : ParserState) : Reaction :=
  if isNum ch = false then p.failWith .invalidVersion else (store (ch.toNat - 48)).goTo state

/-- `case s_req_http_dot` and `case s_res_http_dot`. -/
def versionDot (ch : UInt8) (state : ParserState) : Reaction :=
  if ch ≠ 46 then p.failWith .invalidVersion else p.goTo state

/-- `case s_req_http_end`. -/
def reqHttpEnd (ch : UInt8) : Reaction :=
  if ch = 13 then p.goTo .reqLineAlmostDone
  else if ch = 10 then p.goTo .headerFieldStart
  else p.failWith .invalidVersion

/-- `case s_req_line_almost_done` and `case s_header_almost_done`. -/
def lineFeed (ch : UInt8) (state : ParserState) : Reaction :=
  if ch ≠ 10 then p.failWith .lfExpected else p.goTo state

/-! ### The status line -/

/-- `case s_start_res`. -/
def startRes (ch : UInt8) : Reaction :=
  if ch = 13 ∨ ch = 10 then p.stay
  else if ch = 72 then ⟨{ p.begun with state := .resH }, [.notify .messageBegin true], .next⟩
  else p.begun.failWith .invalidConstant

/-- `case s_res_http_end`. -/
def resHttpEnd (ch : UInt8) : Reaction :=
  if ch ≠ 32 then p.failWith .invalidVersion else p.goTo .resFirstStatusCode

/-- `case s_res_first_status_code`. -/
def resFirstStatusCode (ch : UInt8) : Reaction :=
  if isNum ch = false then if ch = 32 then p.stay else p.failWith .invalidStatus
  else { p with statusCode := ch.toNat - 48 }.goTo .resStatusCode

/-- `case s_res_status_code`. -/
def resStatusCode (ch : UInt8) : Reaction :=
  if isNum ch = false then
    if ch = 32 then p.goTo .resStatusStart
    else if ch = 13 ∨ ch = 10 then p.retryIn .resStatusStart
    else p.failWith .invalidStatus
  else
    let code := p.statusCode * 10 + (ch.toNat - 48)
    if 999 < code then { p with statusCode := code }.failWith .invalidStatus
    else { p with statusCode := code }.stay

/-- `case s_res_status_start`. -/
def resStatusStart (ch : UInt8) : Reaction :=
  ⟨{ p with state := .resStatus, index := 0 }, [.mark .status],
    if ch = 13 ∨ ch = 10 then .reexecute else .next⟩

/-- `case s_res_status`. -/
def resStatus (ch : UInt8) : Reaction :=
  if ch = 13 then ⟨{ p with state := .resLineAlmostDone }, [.data .status true], .next⟩
  else if ch = 10 then ⟨{ p with state := .headerFieldStart }, [.data .status true], .next⟩
  else p.stay

/-! ### Header lines -/

/-- The header state for the first letter of a name. -/
def firstHeaderState (c : UInt8) : HeaderState :=
  if c = 99 then .c
  else if c = 112 then .matchingProxyConnection
  else if c = 116 then .matchingTransferEncoding
  else if c = 117 then .matchingUpgrade
  else .general

/-- `case s_header_field_start`. -/
def headerFieldStart (ch : UInt8) : Reaction :=
  if ch = 13 then p.goTo .headersAlmostDone
  else if ch = 10 then p.retryIn .headersAlmostDone
  else
    match token ch with
    | none => p.failWith .invalidHeaderToken
    | some c =>
      ⟨{ p with index := 0, state := .headerField, headerState := firstHeaderState c },
        [.mark .headerField], .next⟩

/-- One letter against a word, where `index` is the place of the letter in it: whether it is
another word, or the last letter of this one. -/
def matchWord (word : List UInt8) (index : ℕ) (c : UInt8) (other matched going : HeaderState) :
    HeaderState :=
  if word.length < index ∨ c ≠ word.getD index 0 then other
  else if index + 1 = word.length then matched
  else going

/-- The body of the loop of `case s_header_field` for a token character. -/
def fieldStep (ch c : UInt8) : Option Parser :=
  let matching (word : String) (matched going : HeaderState) : Parser :=
    { p with
      index := p.index + 1
      headerState := matchWord (ascii word) (p.index + 1) c .general matched going }
  match p.headerState with
  | .general => some p
  | .c =>
    some { p with index := p.index + 1, headerState := if c = 111 then .co else .general }
  | .co =>
    some { p with index := p.index + 1, headerState := if c = 110 then .con else .general }
  | .con =>
    some { p with
      index := p.index + 1
      headerState := if c = 110 then .matchingConnection
        else if c = 116 then .matchingContentLength else .general }
  | .matchingConnection => some (matching "connection" .connection .matchingConnection)
  | .matchingProxyConnection =>
    some (matching "proxy-connection" .connection .matchingProxyConnection)
  | .matchingContentLength => some (matching "content-length" .contentLength .matchingContentLength)
  | .matchingTransferEncoding =>
    let p' := matching "transfer-encoding" .transferEncoding .matchingTransferEncoding
    some { p' with
      usesTransferEncoding := p.usesTransferEncoding || p'.headerState == .transferEncoding }
  | .matchingUpgrade => some (matching "upgrade" .upgrade .matchingUpgrade)
  | .connection | .contentLength | .transferEncoding | .upgrade =>
    some (if ch ≠ 32 then { p with headerState := .general } else p)
  | _ => none

/-- `case s_header_value_start`. -/
def headerValueStart (ch : UInt8) : Reaction :=
  let c := lowerChar ch
  let started := { p with state := .headerValue, index := 0 }
  let going (headerState : HeaderState) : Reaction :=
    ⟨{ started with headerState := headerState }, [.mark .headerValue], .next⟩
  match p.headerState with
  | .upgrade =>
    ⟨{ started with flags := { p.flags with upgrade := true }, headerState := .general },
      [.mark .headerValue], .next⟩
  | .transferEncoding =>
    going (if c = 99 then .matchingTransferEncodingChunked else .matchingTransferEncodingToken)
  | .contentLength =>
    if isNum ch = false then ⟨started, [.mark .headerValue], .fail .invalidContentLength⟩
    else if p.flags.contentlength then
      ⟨started, [.mark .headerValue], .fail .unexpectedContentLength⟩
    else
      ⟨{ started with
          flags := { p.flags with contentlength := true }
          contentLength := ch.toNat - 48
          headerState := .contentLengthNum },
        [.mark .headerValue], .next⟩
  | .connection =>
    going (if c = 107 then .matchingConnectionKeepAlive
      else if c = 99 then .matchingConnectionClose
      else if c = 117 then .matchingConnectionUpgrade
      else .matchingConnectionToken)
  | .matchingTransferEncodingTokenStart | .contentLengthWs | .matchingConnectionTokenStart =>
    going p.headerState
  | _ => going .general

/-- `case s_header_value_discard_ws`. -/
def headerValueDiscardWs (ch : UInt8) : Reaction :=
  if ch = 32 ∨ ch = 9 then p.stay
  else if ch = 13 then p.goTo .headerValueDiscardWsAlmostDone
  else if ch = 10 then p.goTo .headerValueDiscardLws
  else p.headerValueStart ch

/-- What the body of the loop of `case s_header_value` makes of a byte: the header state and the
parser, a failure with the header state that is stored, or a failed assertion. -/
inductive ValueStep
  | going (h : HeaderState) (p : Parser)
  | fail (h : HeaderState) (p : Parser) (errno : HttpErrno)
  | assertion

/-- `case h_content_length_num` of the loop. -/
def contentLengthDigit (ch : UInt8) : ValueStep :=
  if ch = 32 then .going .contentLengthWs p
  else if isNum ch = false then .fail .contentLengthNum p .invalidContentLength
  else if (ullongMax - 10) / 10 < p.contentLength then
    .fail .contentLengthNum p .invalidContentLength
  else
    .going .contentLengthNum { p with contentLength := p.contentLength * 10 + (ch.toNat - 48) }

/-- A letter of a word in a list of tokens. -/
def tokenLetter (word : String) (c : UInt8) (other matched going : HeaderState) : ValueStep :=
  .going (matchWord (ascii word) (p.index + 1) c other matched going)
    { p with index := p.index + 1 }

/-- A byte in a token of a list that is none of the words looked for. -/
def otherToken (ch : UInt8) (start going : HeaderState) : ValueStep :=
  if ch = 44 then .going start { p with index := 0 } else .going going p

/-- A byte behind a word of the connection header. -/
def connectionWord (ch : UInt8) (h : HeaderState) (flags : Flags) : ValueStep :=
  if ch = 44 then .going .matchingConnectionTokenStart { p with flags := flags, index := 0 }
  else if ch ≠ 32 then .going .matchingConnectionToken p
  else .going h p

/-- The `switch` in the loop of `case s_header_value`. `general` has a loop of its own. -/
def valueStep (ch : UInt8) (h : HeaderState) : ValueStep :=
  let c := lowerChar ch
  match h with
  | .general => .going .general p
  | .connection | .transferEncoding => .assertion
  | .contentLength => if ch = 32 then .going h p else p.contentLengthDigit ch
  | .contentLengthNum => p.contentLengthDigit ch
  | .contentLengthWs => if ch = 32 then .going h p else .fail h p .invalidContentLength
  | .matchingTransferEncodingTokenStart =>
    if c = 99 then .going .matchingTransferEncodingChunked p
    else if (token c).isSome then .going .matchingTransferEncodingToken p
    else if c = 32 ∨ c = 9 then .going h p
    else .going .general p
  | .matchingTransferEncodingChunked =>
    p.tokenLetter "chunked" c .matchingTransferEncodingToken .transferEncodingChunked h
  | .matchingTransferEncodingToken => p.otherToken ch .matchingTransferEncodingTokenStart h
  | .matchingConnectionTokenStart =>
    if c = 107 then .going .matchingConnectionKeepAlive p
    else if c = 99 then .going .matchingConnectionClose p
    else if c = 117 then .going .matchingConnectionUpgrade p
    else if (token c).isSome then .going .matchingConnectionToken p
    else if c = 32 ∨ c = 9 then .going h p
    else .going .general p
  | .matchingConnectionKeepAlive =>
    p.tokenLetter "keep-alive" c .matchingConnectionToken .connectionKeepAlive h
  | .matchingConnectionClose =>
    p.tokenLetter "close" c .matchingConnectionToken .connectionClose h
  | .matchingConnectionUpgrade =>
    p.tokenLetter "upgrade" c .matchingConnectionToken .connectionUpgrade h
  | .matchingConnectionToken => p.otherToken ch .matchingConnectionTokenStart h
  | .transferEncodingChunked =>
    if ch ≠ 32 then .going .matchingTransferEncodingToken p else .going h p
  | .connectionKeepAlive =>
    p.connectionWord ch h { p.flags with connectionKeepAlive := true }
  | .connectionClose => p.connectionWord ch h { p.flags with connectionClose := true }
  | .connectionUpgrade => p.connectionWord ch h { p.flags with connectionUpgrade := true }
  | .c | .co | .con | .matchingConnection | .matchingProxyConnection | .matchingContentLength
  | .matchingTransferEncoding | .matchingUpgrade | .upgrade => .going .general p

/-- The flag that a finished header sets. -/
def headerFlags : Flags :=
  match p.headerState with
  | .connectionKeepAlive => { p.flags with connectionKeepAlive := true }
  | .connectionClose => { p.flags with connectionClose := true }
  | .transferEncodingChunked => { p.flags with chunked := true }
  | .connectionUpgrade => { p.flags with connectionUpgrade := true }
  | _ => p.flags

/-- `case s_header_value_lws`. -/
def headerValueLws (ch : UInt8) : Reaction :=
  if ch = 32 ∨ ch = 9 then
    { p with
      headerState :=
        if p.headerState = HeaderState.contentLengthNum then HeaderState.contentLengthWs
        else p.headerState }.retryIn .headerValueStart
  else { p with flags := p.headerFlags }.retryIn .headerFieldStart

/-- `case s_header_value_discard_lws`. -/
def headerValueDiscardLws (ch : UInt8) : Reaction :=
  if ch = 32 ∨ ch = 9 then p.goTo .headerValueDiscardWs
  else if p.headerState = .contentLength then p.failWith .invalidContentLength
  else
    ⟨{ p with flags := p.headerFlags, state := .headerFieldStart },
      [.mark .headerValue, .data .headerValue false], .reexecute⟩

/-! ### The end of the headers -/

/-- Whether a message has both a length and a transfer encoding that it must not have together. -/
def lengthForbidden : Bool :=
  p.usesTransferEncoding && p.flags.contentlength &&
    if p.flags.chunked then !p.allowChunkedLength else !p.lenientHttpHeaders

/-- `case s_headers_almost_done`. -/
def headersAlmostDone (ch : UInt8) : Reaction :=
  if ch ≠ 10 then p.failWith .strict
  else if p.flags.trailing then
    ⟨{ p with state := .messageDone }, [.notify .chunkComplete false], .reexecute⟩
  else if p.lengthForbidden then p.failWith .unexpectedContentLength
  else
    ⟨{ p with
        state := .headersDone
        upgrade := if p.flags.upgrade && p.flags.connectionUpgrade then
          decide (p.type = .request ∨ p.statusCode = 101)
        else decide (p.method = .CONNECT) },
      [.headersComplete], .reexecute⟩

/-- Whether a body follows by the headers. -/
def hasBody : Bool :=
  p.flags.chunked || (decide (0 < p.contentLength) && decide (p.contentLength ≠ ullongMax))

/-- `case s_headers_done`, behind the check of the byte. -/
def headersDone : Reaction :=
  let p := { p with nread := 0 }
  if p.upgrade ∧ (p.method = .CONNECT ∨ p.flags.skipbody ∨ p.hasBody = false) then p.complete .exit
  else if p.flags.skipbody then p.complete .next
  else if p.flags.chunked then p.goTo .chunkSizeStart
  else if p.usesTransferEncoding then
    if p.type = .request ∧ p.lenientHttpHeaders = false then p.failWith .invalidTransferEncoding
    else p.goTo .bodyIdentityEof
  else if p.contentLength = 0 then p.complete .next
  else if p.contentLength ≠ ullongMax then p.goTo .bodyIdentity
  else if p.messageNeedsEof = false then p.complete .next
  else p.goTo .bodyIdentityEof

/-! ### Chunks -/

/-- An assertion on the parser in front of what a state does. -/
def asserting (condition : Prop) [Decidable condition] (reaction : Reaction) : Reaction :=
  if condition then reaction else ⟨p, [], .assertion⟩

/-- `case s_chunk_size_start`. -/
def chunkSizeStart (ch : UInt8) : Reaction :=
  p.asserting (p.nread = 1 ∧ p.flags.chunked) <|
    match unhex ch with
    | none => p.failWith .invalidChunkSize
    | some digit => { p with contentLength := digit }.goTo .chunkSize

/-- `case s_chunk_size`. -/
def chunkSize (ch : UInt8) : Reaction :=
  p.asserting p.flags.chunked <|
    if ch = 13 then p.goTo .chunkSizeAlmostDone
    else
      match unhex ch with
      | none =>
        if ch = 59 ∨ ch = 32 then p.goTo .chunkParameters else p.failWith .invalidChunkSize
      | some digit =>
        if (ullongMax - 16) / 16 < p.contentLength then p.failWith .invalidContentLength
        else { p with contentLength := p.contentLength * 16 + digit }.stay

/-- `case s_chunk_parameters`. -/
def chunkParameters (ch : UInt8) : Reaction :=
  p.asserting p.flags.chunked <| if ch = 13 then p.goTo .chunkSizeAlmostDone else p.stay

/-- `case s_chunk_size_almost_done`. -/
def chunkSizeAlmostDone (ch : UInt8) : Reaction :=
  p.asserting p.flags.chunked <|
    if ch ≠ 10 then p.failWith .strict
    else if p.contentLength = 0 then
      ⟨{ p with
          nread := 0
          flags := { p.flags with trailing := true }
          state := .headerFieldStart },
        [.notify .chunkHeader true], .next⟩
    else ⟨{ p with nread := 0, state := .chunkData }, [.notify .chunkHeader true], .next⟩

/-- `case s_chunk_data_almost_done`. -/
def chunkDataAlmostDone (ch : UInt8) : Reaction :=
  p.asserting (p.flags.chunked ∧ p.contentLength = 0) <|
    if ch ≠ 13 then p.failWith .strict
    else ⟨{ p with state := .chunkDataDone }, [.data .body true], .next⟩

/-- `case s_chunk_data_done`. -/
def chunkDataDone (ch : UInt8) : Reaction :=
  p.asserting p.flags.chunked <|
    if ch ≠ 10 then p.failWith .strict
    else ⟨{ p with nread := 0, state := .chunkSizeStart }, [.notify .chunkComplete true], .next⟩

/-- The `switch` of `http_parser_execute` for the states without a loop of their own. -/
def react (ch : UInt8) : Reaction :=
  match p.state with
  | .dead => if ch = 13 ∨ ch = 10 then p.stay else p.failWith .closedConnection
  | .startRes => p.startRes ch
  | .resH => p.expect ch 84 .resHT
  | .resHT => p.expect ch 84 .resHTT
  | .resHTT => p.expect ch 80 .resHTTP
  | .resHTTP => p.expect ch 47 .resHttpMajor
  | .resHttpMajor => p.versionDigit ch (fun digit ↦ { p with httpMajor := digit }) .resHttpDot
  | .resHttpDot => p.versionDot ch .resHttpMinor
  | .resHttpMinor => p.versionDigit ch (fun digit ↦ { p with httpMinor := digit }) .resHttpEnd
  | .resHttpEnd => p.resHttpEnd ch
  | .resFirstStatusCode => p.resFirstStatusCode ch
  | .resStatusCode => p.resStatusCode ch
  | .resStatusStart => p.resStatusStart ch
  | .resStatus => p.resStatus ch
  | .resLineAlmostDone => p.expect ch 10 .headerFieldStart
  | .startReq => p.startReq ch
  | .reqMethod => p.reqMethod ch
  | .reqUrl s => p.reqUrl s ch
  | .reqHttpStart => p.reqHttpStart ch
  | .reqHttpH => p.expect ch 84 .reqHttpHT
  | .reqHttpHT => p.expect ch 84 .reqHttpHTT
  | .reqHttpHTT => p.expect ch 80 .reqHttpHTTP
  | .reqHttpI => p.expect ch 67 .reqHttpIC
  | .reqHttpIC => p.expect ch 69 .reqHttpHTTP
  | .reqHttpHTTP => p.expect ch 47 .reqHttpMajor
  | .reqHttpMajor => p.versionDigit ch (fun digit ↦ { p with httpMajor := digit }) .reqHttpDot
  | .reqHttpDot => p.versionDot ch .reqHttpMinor
  | .reqHttpMinor => p.versionDigit ch (fun digit ↦ { p with httpMinor := digit }) .reqHttpEnd
  | .reqHttpEnd => p.reqHttpEnd ch
  | .reqLineAlmostDone => p.lineFeed ch .headerFieldStart
  | .headerFieldStart => p.headerFieldStart ch
  | .headerValueDiscardWs => p.headerValueDiscardWs ch
  | .headerValueDiscardWsAlmostDone => p.expect ch 10 .headerValueDiscardLws
  | .headerValueDiscardLws => p.headerValueDiscardLws ch
  | .headerValueStart => p.headerValueStart ch
  | .headerAlmostDone => p.lineFeed ch .headerValueLws
  | .headerValueLws => p.headerValueLws ch
  | .headersAlmostDone => p.headersAlmostDone ch
  | .headersDone => if ch ≠ 10 then p.failWith .strict else p.headersDone
  | .chunkSizeStart => p.chunkSizeStart ch
  | .chunkSize => p.chunkSize ch
  | .chunkParameters => p.chunkParameters ch
  | .chunkSizeAlmostDone => p.chunkSizeAlmostDone ch
  | .chunkDataAlmostDone => p.chunkDataAlmostDone ch
  | .chunkDataDone => p.chunkDataDone ch
  | .messageDone => p.complete (if p.upgrade then .exit else .next)
  | .headerField | .headerValue | .chunkData | .bodyIdentity | .bodyIdentityEof =>
    ⟨p, [], .assertion⟩

end Parser

end Cczoe.Http
