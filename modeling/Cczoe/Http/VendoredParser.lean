import Cczoe.Http.ParserReports
import Cczoe.Http.KeepAlive

/-!
# Requests dumped and read by the vendored parser

`HttpParserLibrary` is what the callbacks of `HttpParser.cpp` are handed to, and `httpParser` is the
vendored `http_parser` as such a library. With it nothing is left to be assumed of the parser:
`httpParser_reports_iff` says which well-formed messages it reports, `httpParser_roundTrips_iff`
which dumps it reads back, and `handleClient_dumps` what a session makes of dumps that each arrive
in one read.
-/

set_option autoImplicit false
set_option relaxedAutoImplicit false

namespace Cczoe.Http

open Foundations

/-! ### The library -/

/-- The number of an error. -/
def HttpErrno.number (errno : HttpErrno) : ℕ := errno.ctorIdx

theorem HttpErrno.number_eq_zero_iff (errno : HttpErrno) : errno.number = 0 ↔ errno = .ok := by
  cases errno <;> decide

theorem Parser.Resting.returned [i : HeaderCounter] {σ : Type} {settings : Callback → σ → ℕ × σ}
    {data : List UInt8} {p : Parser} {user : σ} {r : Returned σ} (hp : p.Resting)
    (hcall : httpParserExecute settings data p user = some r) : r.parser.Resting := by
  obtain ⟨r', hreturned, hr⟩ := hp.execute settings data user
  rw [hcall] at hreturned
  cases hreturned
  exact hr.parser

theorem Parser.Resting.isSome {σ : Type} {p : Parser} (hp : p.Resting)
    (settings : Callback → σ → ℕ × σ) (data : List UInt8) (user : σ) :
    (httpParserExecute settings data p user).isSome = true := by
  obtain ⟨r, hcall, -⟩ := hp.execute settings data user
  rw [hcall]
  rfl

/-- The vendored `http_parser`. `hostOk` says whether `http_parse_host` and the conversion of the
port accept a URL. -/
def httpParser (hostOk : List UInt8 → Bool) : HttpParserLibrary where
  Parser := { p : Parser // p.Resting }
  init := ⟨Parser.init .request, Parser.resting_init .request⟩
  execute := fun settings data state ↦
    let r := (httpParserExecute settings data state.1.1 state.2).get
      (state.1.2.isSome settings data state.2)
    (r.nparsed, ⟨r.parser, state.1.2.returned (Option.some_get _).symm⟩, r.user)
  errno := fun parser ↦ parser.1.httpErrno.number
  parseUrl := httpParserParseUrl hostOk

section Library

variable {hostOk : List UInt8 → Bool} {σ : Type} {settings : Callback → σ → ℕ × σ}
  {data : List UInt8} {user : σ}

theorem execute_httpParser {p : Parser} (hp : p.Resting) {r : Returned σ}
    (hcall : httpParserExecute settings data p user = some r) :
    (httpParser hostOk).execute settings data (⟨p, hp⟩, user) =
      (r.nparsed, ⟨r.parser, hp.returned hcall⟩, r.user) := by
  simp only [httpParser, hcall, Option.get_some]

variable (hostOk) in
/-- A call on a new parser. -/
theorem execute_new {r : Returned σ}
    (hcall : httpParserExecute settings data (Parser.init .request) user = some r) :
    ∃ parser, (httpParser hostOk).execute settings data ((httpParser hostOk).init, user) =
        (r.nparsed, parser, r.user) ∧
      (httpParser hostOk).errno parser = r.parser.httpErrno.number :=
  ⟨⟨r.parser, (Parser.resting_init .request).returned hcall⟩,
    execute_httpParser (Parser.resting_init .request) hcall, rfl⟩

theorem text_ne_nil (m : RequestMessage) : m.text ≠ [] := by
  rw [text_eq]
  exact List.append_ne_nil_of_right_ne_nil _ (List.cons_ne_nil _ _)

variable (hostOk) in
theorem reports_of_clear {m : RequestMessage} (hfits : m.Fits) (hclear : m.Clear) :
    Reports (httpParser hostOk) m := by
  intro hm σ settings user after hcalls
  obtain ⟨p, hcall, hok⟩ :=
    execute_of_finishes (text_ne_nil m) (leads_finish hm hfits hclear hcalls)
  obtain ⟨parser, hexecute, herrno⟩ := execute_new hostOk hcall
  refine ⟨parser, ?_, ?_⟩
  · rw [hexecute]
  · rw [herrno]
    exact (HttpErrno.number_eq_zero_iff _).mpr hok

variable (hostOk) in
/-- Assumes: a well-formed message that the parser has room for, with a header name that begins with
`Transfer-Encoding`, and callbacks that return zero. The call ends with an error. -/
theorem errno_of_not_clear {m : RequestMessage} (hm : m.WellFormed) (hfits : m.Fits)
    (hclear : ¬ m.Clear) {after : σ}
    (hcalls : runCallbacks settings m.callbacks user = some after) :
    (httpParser hostOk).errno
      ((httpParser hostOk).execute settings m.text ((httpParser hostOk).init, user)).2.1 ≠ 0 := by
  obtain ⟨r, hcall, herror⟩ :=
    execute_of_refuses (text_ne_nil m) (leads_refusal hm hfits hclear hcalls)
  obtain ⟨parser, hexecute, herrno⟩ := execute_new hostOk hcall
  rw [hexecute, herrno, ne_eq, HttpErrno.number_eq_zero_iff]
  exact herror

/-- Assumes: a well-formed message that the parser has room for. It is reported exactly when none of
its header names begins with `Transfer-Encoding`; otherwise the call ends with an error. -/
theorem httpParser_reports_iff {m : RequestMessage} (hm : m.WellFormed) (hfits : m.Fits) :
    (Reports (httpParser hostOk) m ↔ m.Clear) ∧
      (¬ m.Clear → ∀ (σ : Type) (settings : Callback → σ → ℕ × σ) (user after : σ),
        runCallbacks settings m.callbacks user = some after →
        (httpParser hostOk).errno ((httpParser hostOk).execute settings m.text
          ((httpParser hostOk).init, user)).2.1 ≠ 0) := by
  refine ⟨⟨fun hreports ↦ ?_, reports_of_clear hostOk hfits⟩,
    fun hclear _ _ _ _ hcalls ↦ errno_of_not_clear hostOk hm hfits hclear hcalls⟩
  by_contra hclear
  -- callbacks that do nothing are enough to see the error
  let quiet : Callback → Unit → ℕ × Unit := fun _ user ↦ (0, user)
  have hcalls : runCallbacks quiet m.callbacks () = some () := by
    generalize m.callbacks = callbacks
    induction callbacks with
    | nil => rfl
    | cons callback callbacks ih => exact ih
  obtain ⟨parser, hexecute, herrno⟩ := hreports hm Unit quiet () () hcalls
  have herror := errno_of_not_clear hostOk hm hfits hclear hcalls
  rw [hexecute] at herror
  exact herror herrno

/-- Assumes: a request that can be dumped, whose message the parser has room for. Its dump is parsed
to the request exactly when no header name begins with `Transfer-Encoding` and the URL fits sixteen
bits. -/
theorem httpParser_roundTrips_iff {request : HttpRequest} (hrequest : request.Dumpable)
    (hfits : request.message.Fits) :
    RoundTrips (httpParser hostOk) request ↔ request.message.Clear ∧ request.UrlFits := by
  have hurl : (httpParser hostOk).parseUrl request.message.url = some (cutFields request) :=
    parseUrl_dumped hrequest rfl
  by_cases hclear : request.message.Clear
  · obtain ⟨hfinished, herror, hdata⟩ :=
      execute_dump hrequest (reports_of_clear hostOk hfits hclear) hurl
    rw [roundTrips_iff_of_parsed hrequest hfinished herror hdata, and_iff_right hclear]
  · refine iff_of_false (fun hback ↦ ?_) fun hboth ↦ hclear hboth.1
    obtain ⟨field, hcalls⟩ := runCallbacks_message hurl
    have herrno := errno_of_not_clear hostOk hrequest.wellFormed_message hfits hclear hcalls
    have herror := hback.error_eq
    rw [dump_eq_text hrequest.no_length] at herror
    simp only [HttpRequestParser.error, HttpRequestParser.execute, HttpRequestParser.init] at herror
    rw [herror] at herrno
    exact herrno rfl

end Library

/-! ### A session over dumps -/

/-- The request that is read out of a dump. -/
structure ReadBack (request got : HttpRequest) : Prop where
  method_eq : got.method = request.method
  version_eq : got.version = request.version
  path_eq : got.path = request.path
  query_eq : got.query = request.query
  fragment_eq : got.fragment = request.fragment
  body_eq : got.body = request.body
  headers_perm : got.headers.entries.Perm request.dumpedHeaders

/-- A session of a server that keeps connections alive: every request is read back and answered, in
order, and then nothing more comes. -/
def AnswersEach : List HttpRequest → List ServerEvent → Prop
  | [], events => events = [.recv none]
  | request :: rest, events => ∃ got text later,
    events = .recv (some got) :: .send text :: later ∧ ReadBack request got ∧
      (responseTo true got).dump = some text ∧ AnswersEach rest later

/-- A request whose dump one read returns and the parser takes. -/
structure Sendable (request : HttpRequest) : Prop where
  dumpable : request.Dumpable
  values : ∀ header ∈ request.headers.entries, ∀ c ∈ header.2, isHeaderChar c = true
  clear : ∀ header ∈ request.headers.entries, beginsEncoding header.1 = false
  dump_le : request.dump.length ≤ buffSize

section Session

variable {hostOk : List UInt8 → Bool} {request : HttpRequest}

theorem readBack_parsed (hrequest : request.Dumpable) (hfits : request.UrlFits) :
    ReadBack request (parsedRequest request.message (cutFields request)) where
  method_eq := rfl
  version_eq := version_joined request.version
  path_eq := (slice_path_eq_iff request).mpr hfits.1
  query_eq := (getD_slice_eq_iff request.url _ request.query).mpr hfits.2.1
  fragment_eq := (getD_slice_eq_iff request.url _ request.fragment).mpr hfits.2.2
  body_eq := rfl
  headers_perm := parsedHeaders_perm hrequest (cutFields request)

theorem Sendable.text_eq (hrequest : Sendable request) : request.dump = request.message.text :=
  dump_eq_text hrequest.dumpable.no_length

theorem Sendable.length_le (hrequest : Sendable request) : request.message.text.length ≤ 4096 := by
  rw [← hrequest.text_eq]
  exact hrequest.dump_le

theorem Sendable.clear_message (hrequest : Sendable request) : request.message.Clear :=
  HttpRequest.Dumpable.forall_dumpedHeaders
    (show beginsEncoding (ascii "connection") = false by decide) hrequest.clear
    (show beginsEncoding (ascii "Content-Length") = false by decide)

theorem Sendable.fits (hrequest : Sendable request) : request.message.Fits where
  values := by
    have hconnection : ∀ close, ∀ c ∈ connectionValue close, isHeaderChar c = true := by
      intro close
      cases close <;> exact forall_mem_of_all (by decide)
    exact HttpRequest.Dumpable.forall_dumpedHeaders (hconnection _) hrequest.values
      fun c hc ↦ isHeaderChar_of_digit (digit_of_mem_decimal hc).1 (digit_of_mem_decimal hc).2
  head_le := by
    have hlength := hrequest.length_le
    unfold maxHeaderSize
    omega
  body_lt := by
    have hlength := hrequest.length_le
    rw [length_text hrequest.dumpable.wellFormed_message] at hlength
    omega

theorem Sendable.urlFits (hrequest : Sendable request) : request.UrlFits := by
  have hlength := hrequest.length_le
  rw [length_text hrequest.dumpable.wellFormed_message, RequestMessage.lineLength] at hlength
  have hurl : request.message.url.length = request.url.length := rfl
  exact HttpRequest.urlFits_of_length_lt (by omega)

variable (hostOk) in
/-- A dump that is parsed alone is parsed whole, to the request that the callbacks leave. -/
theorem Sendable.complete (hrequest : Sendable request) :
    CompleteRequest (httpParser hostOk) request.dump ∧
      (parsedAlone (httpParser hostOk) request.dump).2.getData =
        parsedRequest request.message (cutFields request) := by
  have hurl : (httpParser hostOk).parseUrl request.message.url = some (cutFields request) :=
    parseUrl_dumped hrequest.dumpable rfl
  have hcomplete := completeRequest_of_reports hrequest.dumpable.wellFormed_message
    hrequest.length_le (reports_of_clear hostOk hrequest.fits hrequest.clear_message) hurl
  rw [hrequest.text_eq]
  exact hcomplete

/-- Assumes: requests that can be sent, and reads that return one dump each. A server that keeps
connections alive reads every request back and answers it, in order. -/
theorem handleClient_dumps {requests : List HttpRequest}
    (hrequests : ∀ request ∈ requests, Sendable request) :
    AnswersEach requests
      (handleClient (httpParser hostOk) true ⟨requests.map HttpRequest.dump, true⟩) := by
  induction requests with
  | nil => exact handleClient_none recvRequest_nothing
  | cons request rest ih =>
    obtain ⟨hrequest, hrest⟩ := List.forall_mem_cons.mp hrequests
    obtain ⟨hcomplete, hdata⟩ := hrequest.complete hostOk
    have hread := recvRequest_whole hcomplete (rest.map HttpRequest.dump)
    rw [hdata] at hread
    obtain ⟨text, htext, -⟩ :=
      responseText_lines true (parsedRequest request.message (cutFields request))
    rw [List.map_cons, handleClient_some hread htext, if_pos rfl]
    exact ⟨_, text, _, rfl, readBack_parsed hrequest.dumpable hrequest.urlFits, htext, ih hrest⟩

theorem smallRequest_sendable : Sendable smallRequest where
  dumpable := smallRequest_dumpable
  values := by
    rw [smallRequest_entries, List.forall_mem_singleton]
    exact forall_mem_of_all (by decide)
  clear := by
    rw [smallRequest_entries, List.forall_mem_singleton]
    decide
  dump_le := by decide

theorem httpParser_reports_small :
    (Reports (httpParser fun _ ↦ true) smallRequest.message ↔ smallRequest.message.Clear) ∧
      (¬ smallRequest.message.Clear → ∀ (σ : Type) (settings : Callback → σ → ℕ × σ)
        (user after : σ), runCallbacks settings smallRequest.message.callbacks user = some after →
        (httpParser fun _ ↦ true).errno ((httpParser fun _ ↦ true).execute settings
          smallRequest.message.text ((httpParser fun _ ↦ true).init, user)).2.1 ≠ 0) :=
  httpParser_reports_iff smallRequest_dumpable.wellFormed_message smallRequest_sendable.fits

theorem httpParser_roundTrips_small : RoundTrips (httpParser fun _ ↦ true) smallRequest :=
  (httpParser_roundTrips_iff smallRequest_dumpable smallRequest_sendable.fits).mpr
    ⟨smallRequest_sendable.clear_message, smallRequest_sendable.urlFits⟩

theorem handleClient_two_dumps :
    AnswersEach [smallRequest, smallRequest] (handleClient (httpParser fun _ ↦ true) true
      ⟨[smallRequest, smallRequest].map HttpRequest.dump, true⟩) :=
  handleClient_dumps (by simpa using smallRequest_sendable)

end Session

end Cczoe.Http
