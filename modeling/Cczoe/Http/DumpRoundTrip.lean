import Cczoe.Http.MessageText
import Cczoe.Http.UrlParts

/-!
# Requests dumped and parsed again

`HttpRequest::dump` writes a request and `HttpRequestParser` reads it through the callbacks of the
vendored parser. A `RequestMessage` is a request as a sequence of elements: it has a text and the
callbacks that a parser makes for it, one for every element. `Reports` is what is relied on of the
vendored parser for one message: given its text in one buffer, it makes these callbacks.

`dump_eq_text` says that a dump is the text of a well-formed message, and `dump_roundTrips_iff` what
the parser makes of it. Method, version, body and headers come back, with the connection line and
the length of the body beside the headers. The URL comes back exactly when it fits the sixteen bits
in which `http_parser_parse_url` keeps offsets and lengths.
-/

set_option autoImplicit false
set_option relaxedAutoImplicit false

namespace Cczoe.Http

open Foundations

/-! ### Messages and their callbacks -/

/-- A request as the elements that are written and reported. -/
structure RequestMessage where
  method : HttpMethod
  url : List UInt8
  httpMajor : ℕ
  httpMinor : ℕ
  headers : List (List UInt8 × List UInt8)
  body : List UInt8

/-- A character of a header name: letters, digits and the marks ``!#$%&'*+-.^_`|~``. -/
def isTokenChar (c : UInt8) : Bool :=
  isAlpha c || isNum c || c ∈ [33, 35, 36, 37, 38, 39, 42, 43, 45, 46, 94, 95, 96, 124, 126]

/-- A header name. -/
def IsToken (name : List UInt8) : Prop := name ≠ [] ∧ ∀ c ∈ name, isTokenChar c = true

def isBlank (c : UInt8) : Bool := c == 32 || c == 9

/-- A header value: no line break in it and no blank around it. -/
def IsFieldValue (value : List UInt8) : Prop :=
  (∀ c ∈ value, c ≠ 13 ∧ c ≠ 10) ∧ (∀ c ∈ value.head?, isBlank c = false) ∧
    ∀ c ∈ value.getLast?, isBlank c = false

/-- Two header names are the same to the header map and to the parser. -/
def SameName (first second : List UInt8) : Prop := foldedName first = foldedName second

instance (first second : List UInt8) : Decidable (SameName first second) :=
  inferInstanceAs (Decidable (foldedName first = foldedName second))

namespace RequestMessage

/-- A well-formed request whose body is framed by its `Content-Length`. -/
structure WellFormed (m : RequestMessage) : Prop where
  method_ne : m.method ≠ .CONNECT
  url_slash : m.url.head? = some 47
  url_chars : ∀ c ∈ m.url, isUrlChar c = true ∨ c = 63 ∨ c = 35
  major_lt : m.httpMajor < 10
  minor_lt : m.httpMinor < 10
  names : ∀ header ∈ m.headers, IsToken header.1
  values : ∀ header ∈ m.headers, IsFieldValue header.2
  not_chunked : ∀ header ∈ m.headers, ¬ SameName header.1 (ascii "Transfer-Encoding")
  not_upgrade : ∀ header ∈ m.headers, ¬ SameName header.1 (ascii "Upgrade")
  framed : (m.headers.filter fun header ↦
    foldedName header.1 = foldedName (ascii "Content-Length")).map Prod.snd =
      if m.body ≠ [] then [decimal m.body.length] else []

/-- The text of a message. -/
def text (m : RequestMessage) : List UInt8 :=
  ascii (httpMethodToString m.method) ++ ascii " " ++ m.url ++ ascii " HTTP/" ++
    decimal m.httpMajor ++ ascii "." ++ decimal m.httpMinor ++ crlf ++
    m.headers.flatMap (fun header ↦ header.1 ++ ascii ": " ++ header.2 ++ crlf) ++ crlf ++ m.body

/-- The callbacks for a message, one for every element. -/
def callbacks (m : RequestMessage) : List Callback :=
  [.messageBegin, .url m.url] ++
    m.headers.flatMap (fun header ↦ [.headerField header.1, .headerValue header.2]) ++
    [.headersComplete m.httpMajor m.httpMinor m.method] ++
    (if m.body ≠ [] then [.body m.body] else []) ++ [.messageComplete]

end RequestMessage

/-- The callbacks run in order, nothing when one of them does not return zero. -/
def runCallbacks {σ : Type} (settings : Callback → σ → ℕ × σ) : List Callback → σ → Option σ
  | [], user => some user
  | callback :: rest, user =>
    let called := settings callback user
    if called.1 = 0 then runCallbacks settings rest called.2 else none

/-- Given the text of a well-formed message in one buffer, a new parser makes the callbacks of the
message and takes the whole text without an error. -/
def Reports (lib : HttpParserLibrary) (m : RequestMessage) : Prop :=
  m.WellFormed → ∀ (σ : Type) (settings : Callback → σ → ℕ × σ) (user after : σ),
    runCallbacks settings m.callbacks user = some after →
    ∃ parser, lib.execute settings m.text (lib.init, user) = (m.text.length, parser, after) ∧
      lib.errno parser = 0

/-! ### The message of a dump -/

/-- The value of the connection line. -/
def connectionValue (close : Bool) : List UInt8 :=
  if close then ascii "close" else ascii "keep-alive"

/-- The headers that a dump adds behind those of the request. -/
def lengthHeader (body : List UInt8) : List (List UInt8 × List UInt8) :=
  if body ≠ [] then [(ascii "Content-Length", decimal body.length)] else []

namespace HttpRequest

/-- The headers of a dump. -/
def dumpedHeaders (request : HttpRequest) : List (List UInt8 × List UInt8) :=
  (ascii "connection", connectionValue request.close) ::
    (request.headers.entries ++ lengthHeader request.body)

def url (request : HttpRequest) : List UInt8 :=
  urlText request.path request.query request.fragment

/-- The message that a dump is the text of. -/
def message (request : HttpRequest) : RequestMessage where
  method := request.method
  url := request.url
  httpMajor := (request.version >>> 4).toNat
  httpMinor := (request.version &&& 0x0F).toNat
  headers := request.dumpedHeaders
  body := request.body

/-- A request that can be dumped: its elements have the characters that belong where they stand, and
it has none of the headers that the dump or the framing is about. -/
structure Dumpable (request : HttpRequest) : Prop where
  method_ne : request.method ≠ .CONNECT
  major_lt : (request.version >>> 4).toNat < 10
  minor_lt : (request.version &&& 0x0F).toNat < 10
  path_slash : request.path.head? = some 47
  path_chars : ∀ c ∈ request.path, isUrlChar c = true
  query_chars : ∀ c ∈ request.query, isQueryChar c = true
  fragment_chars : ∀ c ∈ request.fragment, isQueryChar c = true
  names : ∀ header ∈ request.headers.entries, IsToken header.1
  values : ∀ header ∈ request.headers.entries, IsFieldValue header.2
  no_connection : request.headers.find (ascii "Connection") = none
  no_length : request.headers.find (ascii "Content-Length") = none
  no_encoding : request.headers.find (ascii "Transfer-Encoding") = none
  no_upgrade : request.headers.find (ascii "Upgrade") = none

/-- Every part of the URL is shorter than 65536 bytes and stands in the URL at its offset modulo
65536. -/
def UrlFits (request : HttpRequest) : Prop :=
  request.path.length < 65536 ∧
    (request.query.length < 65536 ∧
      (request.url.drop (queryOffset request.path % 65536)).take request.query.length =
        request.query) ∧
    (request.fragment.length < 65536 ∧
      (request.url.drop (fragmentOffset request.path request.query % 65536)).take
        request.fragment.length = request.fragment)

end HttpRequest

/-- A new parser that is given the dump in one call finishes without an error and has the request,
with the connection line and the length of the body beside its headers. -/
structure RoundTrips (lib : HttpParserLibrary) (request : HttpRequest) : Prop where
  finished : ((HttpRequestParser.init lib).execute request.dump).2.finished = true
  error_eq : ((HttpRequestParser.init lib).execute request.dump).2.error = 0
  method_eq : ((HttpRequestParser.init lib).execute request.dump).2.getData.method = request.method
  version_eq :
    ((HttpRequestParser.init lib).execute request.dump).2.getData.version = request.version
  path_eq : ((HttpRequestParser.init lib).execute request.dump).2.getData.path = request.path
  query_eq : ((HttpRequestParser.init lib).execute request.dump).2.getData.query = request.query
  fragment_eq :
    ((HttpRequestParser.init lib).execute request.dump).2.getData.fragment = request.fragment
  body_eq : ((HttpRequestParser.init lib).execute request.dump).2.getData.body = request.body
  headers_perm : ((HttpRequestParser.init lib).execute request.dump).2.getData.headers.entries.Perm
    request.dumpedHeaders

/-! ### The dump is the text of its message -/

/-- Assumes: the request has no `Content-Length` of its own. Its dump is the text of its message. -/
theorem dump_eq_text {request : HttpRequest}
    (hlength : request.headers.find (ascii "Content-Length") = none) :
    request.dump = request.message.text := by
  have hconnection : (if request.close then ascii "connection: close"
      else ascii "connection: keep-alive") =
      ascii "connection" ++ (ascii ": " ++ connectionValue request.close) := by
    cases request.close <;> decide
  have hquestion : ascii "?" = [63] := by decide
  have hhash : ascii "#" = [35] := by decide
  have hcolon : ascii "Content-Length: " = ascii "Content-Length" ++ ascii ": " := by decide
  rw [HttpRequest.dump, RequestMessage.text, HttpRequest.message, hconnection, hquestion, hhash]
  simp only [HttpRequest.url, urlText, HttpRequest.dumpedHeaders, lengthHeader, hlength, if_true,
    hcolon, List.flatMap_cons, List.flatMap_append, List.append_assoc, List.singleton_append]
  by_cases hbody : request.body = []
  · simp [hbody]
  · simp [hbody]

/-! ### What the callbacks leave -/

section Callbacks

variable {σ : Type} {settings : Callback → σ → ℕ × σ}

theorem runCallbacks_append (first second : List Callback) (user : σ) :
    runCallbacks settings (first ++ second) user =
      (runCallbacks settings first user).bind (runCallbacks settings second) := by
  induction first generalizing user with
  | nil => rfl
  | cons callback rest ih =>
    simp only [List.cons_append, runCallbacks]
    split_ifs
    · exact ih _
    · rfl

/-- Assumes: a callback that returns zero. The others follow it. -/
theorem runCallbacks_cons {callback : Callback} {user next : σ}
    (hcall : settings callback user = (0, next)) (rest : List Callback) :
    runCallbacks settings (callback :: rest) user = runCallbacks settings rest next := by
  simp only [runCallbacks, hcall, if_true]

end Callbacks

section Target

variable {parseUrl : List UInt8 → Option UrlFields}

/-- A header block is stored by one assignment a header. -/
theorem runCallbacks_headers (headers : List (List UInt8 × List UInt8)) (target : RequestTarget) :
    ∃ field, runCallbacks (RequestTarget.onCallback parseUrl)
        (headers.flatMap fun header ↦ [.headerField header.1, .headerValue header.2]) target =
      some { target with
        currField := field
        data := { target.data with
          headers := headers.foldl (fun map header ↦ map.assign header.1 header.2)
            target.data.headers } } := by
  induction headers generalizing target with
  | nil => exact ⟨target.currField, rfl⟩
  | cons header rest ih =>
    obtain ⟨field, hrest⟩ := ih { target with
      currField := header.1
      data := target.data.setHeader header.1 header.2 }
    refine ⟨field, ?_⟩
    rw [List.flatMap_cons, List.cons_append, runCallbacks_cons rfl, List.singleton_append,
      runCallbacks_cons rfl]
    exact hrest

/-- The request that the callbacks for a message leave, where `fields` are the parts of its URL. -/
def parsedRequest (m : RequestMessage) (fields : UrlFields) : HttpRequest where
  method := m.method
  version := UInt8.ofNat ((m.httpMajor <<< 4) ||| m.httpMinor)
  close := false
  path := fields.path.getD [47]
  query := fields.query.getD []
  fragment := fields.fragment.getD []
  body := m.body
  headers := m.headers.foldl (fun map header ↦ map.assign header.1 header.2) OrderedMap.empty

/-- Assumes: a URL that is taken apart. The callbacks for a message return zero and leave its
request. -/
theorem runCallbacks_message {m : RequestMessage} {fields : UrlFields}
    (hurl : parseUrl m.url = some fields) :
    ∃ field, runCallbacks (RequestTarget.onCallback parseUrl) m.callbacks RequestTarget.init =
      some ⟨parsedRequest m fields, true, field⟩ := by
  have hcall : RequestTarget.onCallback parseUrl (.url m.url) RequestTarget.init =
      (0, { RequestTarget.init with
        data := { HttpRequest.init with
          path := fields.path.getD [47]
          query := fields.query.getD []
          fragment := fields.fragment.getD [] } }) := by
    simp only [RequestTarget.onCallback, RequestTarget.onUrl, hurl]
    rfl
  obtain ⟨field, hheaders⟩ := @runCallbacks_headers parseUrl m.headers
    { RequestTarget.init with
      data := { HttpRequest.init with
        path := fields.path.getD [47]
        query := fields.query.getD []
        fragment := fields.fragment.getD [] } }
  refine ⟨field, ?_⟩
  rw [RequestMessage.callbacks, List.append_assoc, List.append_assoc, List.append_assoc,
    List.cons_append, runCallbacks_cons rfl, List.singleton_append, runCallbacks_cons hcall,
    runCallbacks_append, hheaders, Option.bind_some, List.singleton_append, runCallbacks_cons rfl]
  by_cases hbody : m.body = []
  · rw [if_neg (by simpa using hbody), List.nil_append, runCallbacks_cons rfl, parsedRequest, hbody]
    rfl
  · rw [if_pos hbody, List.singleton_append, runCallbacks_cons rfl, runCallbacks_cons rfl]
    rfl

end Target

/-! ### The message of a dump is well formed -/

/-- Assumes: no byte of a value is a line break or a blank. It is a header value. -/
theorem isFieldValue_of_bytes {value : List UInt8}
    (hbytes : ∀ c ∈ value, c ≠ 13 ∧ c ≠ 10 ∧ isBlank c = false) : IsFieldValue value := by
  refine ⟨fun c hc ↦ ⟨(hbytes c hc).1, (hbytes c hc).2.1⟩, fun c hc ↦ ?_, fun c hc ↦ ?_⟩
  · exact (hbytes c (List.mem_of_head? hc)).2.2
  · exact (hbytes c (List.mem_of_getLast? hc)).2.2

theorem isFieldValue_decimal (n : ℕ) : IsFieldValue (decimal n) := by
  refine isFieldValue_of_bytes fun c hc ↦ ?_
  have hlow := (digit_of_mem_decimal hc).1
  have hother : ∀ other : UInt8, ¬ 48 ≤ other → c ≠ other := by
    rintro other hless rfl
    exact hless hlow
  refine ⟨hother 13 (by decide), hother 10 (by decide), ?_⟩
  rw [isBlank, beq_eq_false_iff_ne.mpr (hother 32 (by decide)),
    beq_eq_false_iff_ne.mpr (hother 9 (by decide)), Bool.or_false]

theorem isFieldValue_connectionValue (close : Bool) : IsFieldValue (connectionValue close) := by
  cases close <;> exact isFieldValue_of_bytes (forall_mem_of_all (by decide))

theorem isToken_connection : IsToken (ascii "connection") :=
  ⟨by decide, forall_mem_of_all (by decide)⟩

theorem isToken_contentLength : IsToken (ascii "Content-Length") :=
  ⟨by decide, forall_mem_of_all (by decide)⟩

theorem mem_lengthHeader {body : List UInt8} {header : List UInt8 × List UInt8}
    (hheader : header ∈ lengthHeader body) :
    body ≠ [] ∧ header = (ascii "Content-Length", decimal body.length) := by
  rw [lengthHeader] at hheader
  split_ifs at hheader with hbody
  · exact ⟨hbody, List.mem_singleton.mp hheader⟩
  · exact absurd hheader List.not_mem_nil

namespace HttpRequest.Dumpable

variable {request : HttpRequest}

/-- Every header of the dump is the connection line, a header of the request or the length. -/
theorem forall_dumpedHeaders {property : List UInt8 × List UInt8 → Prop}
    (hconnection : property (ascii "connection", connectionValue request.close))
    (hheaders : ∀ header ∈ request.headers.entries, property header)
    (hlength : property (ascii "Content-Length", decimal request.body.length)) :
    ∀ header ∈ request.dumpedHeaders, property header := by
  refine List.forall_mem_cons.mpr ⟨hconnection, fun header hheader ↦ ?_⟩
  rcases List.mem_append.mp hheader with hown | hadded
  · exact hheaders header hown
  · rw [(mem_lengthHeader hadded).2]
    exact hlength

/-- The headers of a dump have different names. -/
theorem dumpedHeaders_distinct (hrequest : request.Dumpable) :
    request.dumpedHeaders.Pairwise fun a b ↦ foldedName a.1 ≠ foldedName b.1 := by
  have hconnection := OrderedMap.find_eq_none_iff.mp hrequest.no_connection
  have hlength := OrderedMap.find_eq_none_iff.mp hrequest.no_length
  have hsame : foldedName (ascii "connection") = foldedName (ascii "Connection") := by decide
  have hother : foldedName (ascii "connection") ≠ foldedName (ascii "Content-Length") := by decide
  refine List.pairwise_cons.mpr ⟨?_, List.pairwise_append.mpr ⟨?_, ?_, ?_⟩⟩
  · intro header hheader
    rcases List.mem_append.mp hheader with hown | hadded
    · rw [hsame]
      exact (hconnection header hown).symm
    · rw [(mem_lengthHeader hadded).2]
      exact hother
  · exact request.headers.sorted.imp ne_of_lt
  · rw [lengthHeader]
    split_ifs
    · exact List.pairwise_singleton _ _
    · exact List.Pairwise.nil
  · intro header hown other hadded
    rw [(mem_lengthHeader hadded).2]
    exact hlength header hown

theorem url_chars (hrequest : request.Dumpable) :
    ∀ c ∈ request.url, isUrlChar c = true ∨ c = 63 ∨ c = 35 := by
  have hquery : ∀ c, isQueryChar c = true → isUrlChar c = true ∨ c = 63 ∨ c = 35 := by
    intro c hc
    rw [isQueryChar, Bool.or_eq_true, beq_iff_eq] at hc
    rcases hc with hurl | hmark
    · exact Or.inl hurl
    · exact Or.inr (Or.inl hmark)
  intro c hc
  rcases List.mem_append.mp hc with hpath | hrest
  · exact Or.inl (hrequest.path_chars c hpath)
  · rcases List.mem_append.mp hrest with hq | hf
    · split_ifs at hq
      · rcases List.mem_cons.mp hq with rfl | hmem
        · exact Or.inr (Or.inl rfl)
        · exact hquery c (hrequest.query_chars c hmem)
      · exact absurd hq List.not_mem_nil
    · split_ifs at hf
      · rcases List.mem_cons.mp hf with rfl | hmem
        · exact Or.inr (Or.inr rfl)
        · exact hquery c (hrequest.fragment_chars c hmem)
      · exact absurd hf List.not_mem_nil

/-- The body of a dump is framed by its length. -/
theorem framed (hrequest : request.Dumpable) :
    (request.dumpedHeaders.filter fun header ↦
      foldedName header.1 = foldedName (ascii "Content-Length")).map Prod.snd =
        if request.body ≠ [] then [decimal request.body.length] else [] := by
  have hown : request.headers.entries.filter (fun header ↦
      foldedName header.1 = foldedName (ascii "Content-Length")) = [] := by
    rw [List.filter_eq_nil_iff]
    intro header hheader
    simpa using OrderedMap.find_eq_none_iff.mp hrequest.no_length header hheader
  have hconnection : ¬ foldedName (ascii "connection") = foldedName (ascii "Content-Length") := by
    decide
  rw [dumpedHeaders, List.filter_cons_of_neg (by simpa using hconnection), List.filter_append,
    hown, List.nil_append, lengthHeader]
  split_ifs
  · simp
  · rfl

theorem wellFormed_message (hrequest : request.Dumpable) : request.message.WellFormed where
  method_ne := hrequest.method_ne
  url_slash := by
    change (urlText _ _ _).head? = some 47
    rw [urlText, List.head?_append, hrequest.path_slash]
    rfl
  url_chars := hrequest.url_chars
  major_lt := hrequest.major_lt
  minor_lt := hrequest.minor_lt
  names := forall_dumpedHeaders isToken_connection hrequest.names isToken_contentLength
  values := forall_dumpedHeaders (isFieldValue_connectionValue request.close) hrequest.values
    (isFieldValue_decimal _)
  not_chunked := by
    have hconnection : ¬ SameName (ascii "connection") (ascii "Transfer-Encoding") := by decide
    have hlength : ¬ SameName (ascii "Content-Length") (ascii "Transfer-Encoding") := by decide
    exact forall_dumpedHeaders hconnection
      (OrderedMap.find_eq_none_iff.mp hrequest.no_encoding) hlength
  not_upgrade := by
    have hconnection : ¬ SameName (ascii "connection") (ascii "Upgrade") := by decide
    have hlength : ¬ SameName (ascii "Content-Length") (ascii "Upgrade") := by decide
    exact forall_dumpedHeaders hconnection
      (OrderedMap.find_eq_none_iff.mp hrequest.no_upgrade) hlength
  framed := hrequest.framed

end HttpRequest.Dumpable

/-! ### What the parser makes of a dump -/

section Parsed

variable {lib : HttpParserLibrary} {request : HttpRequest}

/-- Assumes: a request that can be dumped, a parser that reports its message, and a URL that is
taken apart. The parser finishes without an error and has the request that the callbacks leave. -/
theorem execute_dump {fields : UrlFields} (hrequest : request.Dumpable)
    (hlib : Reports lib request.message) (hurl : lib.parseUrl request.url = some fields) :
    ((HttpRequestParser.init lib).execute request.dump).2.finished = true ∧
      ((HttpRequestParser.init lib).execute request.dump).2.error = 0 ∧
      ((HttpRequestParser.init lib).execute request.dump).2.getData =
        parsedRequest request.message fields := by
  obtain ⟨field, hcalls⟩ := @runCallbacks_message lib.parseUrl request.message fields hurl
  obtain ⟨parser, hexecute, herrno⟩ := hlib hrequest.wellFormed_message _ _ _ _ hcalls
  have hrun : (HttpRequestParser.init lib).execute request.dump =
      (request.message.text.length,
        ⟨parser, parsedRequest request.message fields, true, field⟩) := by
    rw [dump_eq_text hrequest.no_length]
    simp only [HttpRequestParser.execute, HttpRequestParser.init, hexecute]
  rw [hrun]
  exact ⟨rfl, herrno, rfl⟩

/-- The two halves of a version are put together again. -/
theorem version_joined (version : UInt8) :
    UInt8.ofNat (((version >>> 4).toNat <<< 4) ||| (version &&& 0x0F).toNat) = version := by
  have hhigh : (version >>> 4).toNat = version.toNat / 16 := by
    rw [UInt8.toNat_shiftRight, Nat.shiftRight_eq_div_pow]
    rfl
  have hlow : (version &&& 0x0F).toNat = version.toNat % 16 := by
    rw [UInt8.toNat_and]
    exact Nat.and_two_pow_sub_one_eq_mod version.toNat 4
  have hlt : version.toNat % 16 < 2 ^ 4 := Nat.mod_lt _ (by decide)
  rw [hhigh, hlow, ← Nat.shiftLeft_add_eq_or_of_lt hlt, Nat.shiftLeft_eq, Nat.div_add_mod',
    UInt8.ofNat_toNat]

/-- The header lines of a dump are stored as they stand, each under its own name. -/
theorem parsedHeaders_perm (hrequest : request.Dumpable) (fields : UrlFields) :
    (parsedRequest request.message fields).headers.entries.Perm request.dumpedHeaders := by
  have hstored := OrderedMap.perm_foldl_assign hrequest.dumpedHeaders_distinct
    (OrderedMap.empty : MapType) (fun _ _ entry hentry ↦ absurd hentry List.not_mem_nil)
  exact hstored.trans (List.Perm.of_eq (List.append_nil _))

/-- The parts of the URL of a dump, cut out with offsets and lengths of sixteen bits. -/
def cutFields (request : HttpRequest) : UrlFields where
  path := some (slice request.url (runAt 0 request.path))
  query := if request.query ≠ [] then
    some (slice request.url (runAt (queryOffset request.path) request.query)) else none
  fragment := if request.fragment ≠ [] then
    some (slice request.url (runAt (fragmentOffset request.path request.query) request.fragment))
    else none

/-- Assumes: the URL parser of the vendored library. It cuts the URL of a dump into its parts. -/
theorem parseUrl_dumped {hostOk : List UInt8 → Bool} (hrequest : request.Dumpable)
    (hparse : lib.parseUrl = httpParserParseUrl hostOk) :
    lib.parseUrl request.url = some (cutFields request) := by
  rw [hparse]
  exact parseUrl_urlText hostOk hrequest.path_slash hrequest.path_chars hrequest.query_chars
    hrequest.fragment_chars

/-- A part that need not be there is read back exactly when it is cut out whole. -/
theorem getD_slice_eq_iff (url : List UInt8) (offset : ℕ) (part : List UInt8) :
    (if part ≠ [] then some (slice url (runAt offset part)) else none).getD [] = part ↔
      part.length < 65536 ∧ (url.drop (offset % 65536)).take part.length = part := by
  cases part with
  | nil => simp
  | cons c others =>
    rw [if_pos (List.cons_ne_nil _ _), Option.getD_some]
    exact slice_runAt_eq_iff url offset (c :: others)

/-- The path is read back exactly when it is shorter than 65536 bytes: it stands at the front. -/
theorem slice_path_eq_iff (request : HttpRequest) :
    slice request.url (runAt 0 request.path) = request.path ↔ request.path.length < 65536 := by
  have hfront : (request.url.drop (0 % 65536)).take request.path.length = request.path := by
    rw [Nat.zero_mod, List.drop_zero]
    exact List.take_left
  rw [slice_runAt_eq_iff]
  exact and_iff_left hfront

/-- Assumes: a request that can be dumped, whose dump is parsed to what the callbacks leave. It is
the request exactly when the URL fits sixteen bits. -/
theorem roundTrips_iff_of_parsed (hrequest : request.Dumpable)
    (hfinished : ((HttpRequestParser.init lib).execute request.dump).2.finished = true)
    (herror : ((HttpRequestParser.init lib).execute request.dump).2.error = 0)
    (hdata : ((HttpRequestParser.init lib).execute request.dump).2.getData =
      parsedRequest request.message (cutFields request)) :
    RoundTrips lib request ↔ request.UrlFits := by
  have hpath := slice_path_eq_iff request
  have hquery := getD_slice_eq_iff request.url (queryOffset request.path) request.query
  have hfragment := getD_slice_eq_iff request.url (fragmentOffset request.path request.query)
    request.fragment
  constructor
  · intro hback
    have hp := hback.path_eq
    have hq := hback.query_eq
    have hf := hback.fragment_eq
    rw [hdata] at hp hq hf
    exact ⟨hpath.mp hp, hquery.mp hq, hfragment.mp hf⟩
  · rintro ⟨hp, hq, hf⟩
    refine ⟨hfinished, herror, ?_, ?_, ?_, ?_, ?_, ?_, ?_⟩ <;> rw [hdata]
    · rfl
    · exact version_joined request.version
    · exact hpath.mpr hp
    · exact hquery.mpr hq
    · exact hfragment.mpr hf
    · rfl
    · exact parsedHeaders_perm hrequest (cutFields request)

/-- Assumes: a request that can be dumped, a parser that reports its message, and the URL parser of
the vendored library. A dump is parsed to its request exactly when the URL fits sixteen bits. -/
theorem dump_roundTrips_iff {hostOk : List UInt8 → Bool} (hrequest : request.Dumpable)
    (hlib : Reports lib request.message) (hparse : lib.parseUrl = httpParserParseUrl hostOk) :
    RoundTrips lib request ↔ request.UrlFits := by
  obtain ⟨hfinished, herror, hdata⟩ :=
    execute_dump hrequest hlib (parseUrl_dumped hrequest hparse)
  exact roundTrips_iff_of_parsed hrequest hfinished herror hdata

end Parsed

/-! ### URLs below 65536 bytes -/

/-- Assumes: a URL below 65536 bytes in which a part stands behind its first bytes. The part stands
in it at its offset modulo 65536. -/
theorem standing_of_eq_append {url front part rest : List UInt8} (hshort : url.length < 65536)
    (hurl : url = front ++ (part ++ rest)) :
    part.length < 65536 ∧ (url.drop (front.length % 65536)).take part.length = part := by
  have hlength := congrArg List.length hurl
  rw [List.length_append, List.length_append] at hlength
  refine ⟨by omega, ?_⟩
  rw [Nat.mod_eq_of_lt (by omega), hurl, List.drop_left, List.take_left]

/-- An empty part stands everywhere. -/
theorem standing_nil (url : List UInt8) (offset : ℕ) :
    ([] : List UInt8).length < 65536 ∧
      (url.drop (offset % 65536)).take ([] : List UInt8).length = [] :=
  ⟨by decide, List.take_zero⟩

/-- Assumes: a URL below 65536 bytes. It fits. -/
theorem HttpRequest.urlFits_of_length_lt {request : HttpRequest}
    (hshort : request.url.length < 65536) : request.UrlFits := by
  refine ⟨(standing_of_eq_append hshort (List.nil_append _).symm).1, ?_, ?_⟩
  · by_cases hquery : request.query = []
    · rw [hquery]
      exact standing_nil _ _
    · have hoffset : (request.path ++ [63]).length = queryOffset request.path := by
        rw [List.length_append, List.length_singleton, queryOffset]
      have hurl : request.url = request.path ++ [63] ++ (request.query ++
          if request.fragment ≠ [] then 35 :: request.fragment else []) := by
        rw [HttpRequest.url, urlText, if_pos hquery]
        simp only [List.append_assoc, List.cons_append, List.nil_append]
      rw [← hoffset]
      exact standing_of_eq_append hshort hurl
  · by_cases hfragment : request.fragment = []
    · rw [hfragment]
      exact standing_nil _ _
    · have hoffset : (request.path ++
          ((if request.query ≠ [] then 63 :: request.query else []) ++ [35])).length =
          fragmentOffset request.path request.query := by
        rw [fragmentOffset]
        split_ifs
        · simp only [List.length_append, List.length_cons, List.length_nil]
          omega
        · simp only [List.length_append, List.length_cons, List.length_nil]
      have hurl : request.url = request.path ++
          ((if request.query ≠ [] then 63 :: request.query else []) ++ [35]) ++
          (request.fragment ++ []) := by
        rw [HttpRequest.url, urlText, if_pos hfragment]
        simp only [List.append_assoc, List.cons_append, List.nil_append, List.append_nil]
      rw [← hoffset]
      exact standing_of_eq_append hshort hurl

/-! ### A parser for one message -/

/-- A library that parses one message and nothing else. -/
def scripted (m : RequestMessage) : HttpParserLibrary where
  Parser := Bool
  init := false
  execute := fun settings data state ↦
    if data = m.text then
      match runCallbacks settings m.callbacks state.2 with
      | some after => (data.length, false, after)
      | none => (0, true, state.2)
    else (0, true, state.2)
  errno := fun failed ↦ if failed then 1 else 0
  parseUrl := httpParserParseUrl fun _ ↦ true

theorem scripted_reports (m : RequestMessage) : Reports (scripted m) m := by
  intro _ σ settings user after hcalls
  refine ⟨false, ?_, rfl⟩
  simp only [scripted, if_true, hcalls]

/-- `GET /a?b#c` with one header and a body of two bytes. -/
def smallRequest : HttpRequest :=
  { HttpRequest.init with
    path := ascii "/a"
    query := ascii "b"
    fragment := ascii "c"
    body := ascii "hi"
    headers := OrderedMap.empty.assign (ascii "Host") (ascii "x") }

theorem smallRequest_entries : smallRequest.headers.entries = [(ascii "Host", ascii "x")] := rfl

theorem smallRequest_dumpable : smallRequest.Dumpable where
  method_ne := by decide
  major_lt := by decide
  minor_lt := by decide
  path_slash := by decide
  path_chars := forall_mem_of_all (by decide)
  query_chars := forall_mem_of_all (by decide)
  fragment_chars := forall_mem_of_all (by decide)
  names := by
    rw [smallRequest_entries, List.forall_mem_singleton]
    exact ⟨by decide, forall_mem_of_all (by decide)⟩
  values := by
    rw [smallRequest_entries, List.forall_mem_singleton]
    exact isFieldValue_of_bytes (forall_mem_of_all (by decide))
  no_connection := by decide
  no_length := by decide
  no_encoding := by decide
  no_upgrade := by decide

theorem smallRequest_roundTrips : RoundTrips (scripted smallRequest.message) smallRequest :=
  (dump_roundTrips_iff smallRequest_dumpable (scripted_reports _) rfl).mpr
    (HttpRequest.urlFits_of_length_lt (by decide))

/-- `GET` for a path of 65536 bytes. -/
def longRequest : HttpRequest :=
  { HttpRequest.init with path := 47 :: List.replicate 65535 97 }

theorem longRequest_dumpable : longRequest.Dumpable where
  method_ne := by decide
  major_lt := by decide
  minor_lt := by decide
  path_slash := rfl
  path_chars := by
    refine List.forall_mem_cons.mpr ⟨by decide, fun c hc ↦ ?_⟩
    rw [List.eq_of_mem_replicate hc]
    decide
  query_chars := fun _ hc ↦ absurd hc List.not_mem_nil
  fragment_chars := fun _ hc ↦ absurd hc List.not_mem_nil
  names := fun _ hheader ↦ absurd hheader List.not_mem_nil
  values := fun _ hheader ↦ absurd hheader List.not_mem_nil
  no_connection := rfl
  no_length := rfl
  no_encoding := rfl
  no_upgrade := rfl

/-- Assumes: a request that can be dumped, with a path of 65536 bytes or more. Its path does not
come back. -/
theorem not_roundTrips_of_long_path {request : HttpRequest} (hrequest : request.Dumpable)
    (hlong : 65536 ≤ request.path.length) : ¬ RoundTrips (scripted request.message) request := by
  intro hback
  have hpath := hback.path_eq
  rw [(execute_dump hrequest (scripted_reports _) (parseUrl_dumped hrequest rfl)).2.2] at hpath
  exact absurd ((slice_path_eq_iff request).mp hpath) (not_lt.mpr hlong)

/-- The path of 65536 bytes does not come back. -/
theorem longRequest_not_roundTrips : longRequest.Dumpable ∧
    Reports (scripted longRequest.message) longRequest.message ∧
    (scripted longRequest.message).parseUrl = httpParserParseUrl (fun _ ↦ true) ∧
    ¬ RoundTrips (scripted longRequest.message) longRequest := by
  refine ⟨longRequest_dumpable, scripted_reports _, rfl,
    not_roundTrips_of_long_path longRequest_dumpable ?_⟩
  rw [longRequest, List.length_cons, List.length_replicate]

end Cczoe.Http
