import Cczoe.Http.ConnectionOptions
import Cczoe.Http.SessionReads

/-!
# The session loop of `HttpServer::handleClient`

The handler reads a request, answers it, and reads the next one as long as `m_isKeepAlive` is set.
The answer's `Connection` header comes from `m_close` of the response, which is made of `m_close` of
the request and of `m_isKeepAlive`. No callback of the parser sets `m_close` of a request, so every
answer says `keep-alive` (`responseText_lines`, `close_of_mem_received`).

`handleClient_consistent_iff` is what follows: the handler and its answers agree on whether the
session goes on, and a request to close is answered with `close`, exactly when no request is
received, or the server keeps connections alive and no request asks to close. What a request asks is
read in the bytes that arrived for it (`consumed`); for messages that arrive one at a time it is a
matter of their headers.
-/

set_option autoImplicit false
set_option relaxedAutoImplicit false

namespace Cczoe.Http

open Foundations

/-! ### What a session consumes -/

namespace Connection

/-- The number of bytes still to be read. -/
def pending (conn : Connection) : ℕ := conn.chunks.flatten.length

/-- The bytes of a connection that have been read when another is left. -/
def consumed (conn rest : Connection) : List UInt8 :=
  conn.chunks.flatten.take (conn.pending - rest.pending)

theorem flatten_read (room : ℕ) (conn : Connection) :
    conn.chunks.flatten = (conn.read room).1 ++ (conn.read room).2.chunks.flatten := by
  unfold read
  split_ifs with hclosed
  · rfl
  · cases hchunks : conn.chunks with
    | nil => simp [hchunks]
    | cons chunk rest =>
      simp only [List.flatten_cons]
      split_ifs with hfits
      · rw [List.take_of_length_le hfits]
      · rw [List.flatten_cons, ← List.append_assoc, List.take_append_drop]

theorem pending_read (room : ℕ) (conn : Connection) :
    (conn.read room).1.length + (conn.read room).2.pending = conn.pending := by
  rw [pending, pending, conn.flatten_read room, List.length_append]

end Connection

section Session

variable {lib : HttpParserLibrary}

/-- The loop of `recvRequest` consumes bytes when it returns a request that was not there before. -/
theorem pending_recvLoop (parser : HttpRequestParser lib) (buffer : List UInt8)
    (conn : Connection) :
    (recvLoop parser buffer conn).2.pending ≤ conn.pending ∧
      (parser.finished = false → (recvLoop parser buffer conn).1.isSome = true →
        (recvLoop parser buffer conn).2.pending < conn.pending) := by
  fun_induction recvLoop parser buffer conn with
  | case1 parser buffer conn hfinished =>
    refine ⟨le_refl _, fun hunfinished ↦ ?_⟩
    exact absurd hfinished (by rw [hunfinished]; exact Bool.false_ne_true)
  | case2 parser buffer conn hunfinished got hnothing =>
    have hread : got.1.length + got.2.pending = conn.pending := conn.pending_read _
    exact ⟨by change got.2.pending ≤ _; omega, fun _ hsome ↦ absurd hsome Bool.false_ne_true⟩
  | case3 parser buffer conn hunfinished got hgot parsed hfailed =>
    have hread : got.1.length + got.2.pending = conn.pending := conn.pending_read _
    exact ⟨by change got.2.pending ≤ _; omega, fun _ hsome ↦ absurd hsome Bool.false_ne_true⟩
  | case4 parser buffer conn hunfinished got hgot parsed hparsed ih =>
    have hread : got.1.length + got.2.pending = conn.pending := conn.pending_read _
    have hpos := List.length_pos_of_ne_nil hgot
    have hle := ih.1
    exact ⟨by omega, fun _ _ ↦ by omega⟩

variable (lib)

/-- Assumes: a request is received. Some bytes have been read for it. -/
theorem pending_recvRequest {conn rest : Connection} {request : HttpRequest}
    (hreceived : recvRequest lib conn = (some request, rest)) : rest.pending < conn.pending := by
  have hloop := (pending_recvLoop (HttpRequestParser.init lib) [] conn).2 rfl
  rw [← recvRequest, hreceived] at hloop
  exact hloop rfl

/-- What a call of `recvRequest` has read is the front of what there was. -/
theorem flatten_recvLoop {lib : HttpParserLibrary} (parser : HttpRequestParser lib)
    (buffer : List UInt8) (conn : Connection) :
    ∃ got, conn.chunks.flatten = got ++ (recvLoop parser buffer conn).2.chunks.flatten := by
  fun_induction recvLoop parser buffer conn with
  | case1 parser buffer conn hfinished => exact ⟨[], rfl⟩
  | case2 parser buffer conn hunfinished got hnothing => exact ⟨_, conn.flatten_read _⟩
  | case3 parser buffer conn hunfinished got hgot parsed hfailed => exact ⟨_, conn.flatten_read _⟩
  | case4 parser buffer conn hunfinished got hgot parsed hparsed ih =>
    obtain ⟨later, hlater⟩ := ih
    refine ⟨got.1 ++ later, ?_⟩
    rw [List.append_assoc, ← hlater]
    exact conn.flatten_read _

theorem consumed_append (conn : Connection) :
    conn.consumed (recvRequest lib conn).2 ++ (recvRequest lib conn).2.chunks.flatten =
      conn.chunks.flatten := by
  obtain ⟨got, hgot⟩ := flatten_recvLoop (HttpRequestParser.init lib) [] conn
  rw [← recvRequest] at hgot
  have hcount : conn.pending - (recvRequest lib conn).2.pending = got.length := by
    rw [Connection.pending, Connection.pending, hgot, List.length_append]
    omega
  rw [Connection.consumed, hcount, hgot, List.take_left]

/-! ### `handleClient` -/

/-- What the handler does on the connection. -/
inductive ServerEvent
  | recv (request : Option HttpRequest)
  | send (text : List UInt8)

/-- The answer to a request. -/
def responseTo (keepAlive : Bool) (request : HttpRequest) : HttpResponse :=
  (HttpResponse.ofVersion request.version (request.close && !keepAlive)).setBody
    (ascii "http response from cll")

/-- `HttpServer::handleClient`. An answer that cannot be dumped is an exception that leaves the
handler. -/
def handleClient (keepAlive : Bool) (conn : Connection) : List ServerEvent :=
  match _hreceived : recvRequest lib conn with
  | (none, _) => [.recv none]
  | (some request, rest) =>
    match (responseTo keepAlive request).dump with
    | none => [.recv (some request)]
    | some text =>
      .recv (some request) :: .send text ::
        if keepAlive then handleClient keepAlive rest else []
termination_by conn.pending
decreasing_by exact pending_recvRequest lib _hreceived

/-- The requests that successive calls of `recvRequest` return, up to the first that returns none,
each with the bytes that arrived for it. -/
def received (conn : Connection) : List (List UInt8 × HttpRequest) :=
  match _hreceived : recvRequest lib conn with
  | (none, _) => []
  | (some request, rest) => (conn.consumed rest, request) :: received rest
termination_by conn.pending
decreasing_by exact pending_recvRequest lib _hreceived

variable {lib}

/-- The `Connection` header of a message. -/
def Says (value : String) (text : List UInt8) : Prop :=
  ascii "Connection: " ++ ascii value ∈ headerLines text

/-- The handler reads on. -/
def ReadsOn (events : List ServerEvent) : Prop := ∃ request rest, events = .recv request :: rest

/-- After every answer the handler reads on exactly when the answer says `keep-alive`, and a request
that carries `close` is answered with `close`. The bytes of the requests come first. -/
def Consistent : List (List UInt8) → List ServerEvent → Prop
  | bytes :: others, .recv (some _) :: .send text :: rest =>
    (ReadsOn rest ↔ Says "keep-alive" text) ∧ (CarriesClose bytes → Says "close" text) ∧
      Consistent others rest
  | [], .recv (some _) :: _ => False
  | _, _ => True

/-! ### The answers -/

/-- The status line of an answer has no line break in it. -/
theorem statusLine_no_cr (version : UInt8) :
    ∀ c ∈ ascii "HTTP/" ++ decimal (version >>> 4).toNat ++ ascii "." ++
      decimal (version &&& 0x0F).toNat ++ ascii " " ++ decimal 200 ++ ascii " " ++ ascii "OK",
      c ≠ 13 := by
  have hdecimal : ∀ n : ℕ, ∀ c ∈ decimal n, c ≠ 13 := by
    intro n c hc hcr
    have hdigit := (digit_of_mem_decimal hc).1
    rw [hcr] at hdigit
    exact absurd hdigit (by decide)
  have hascii : ∀ text ∈ ["HTTP/", ".", " ", "OK"], ∀ c ∈ ascii text, c ≠ 13 := by
    have hall : ∀ text ∈ ["HTTP/", ".", " ", "OK"],
        ((ascii text).all fun c ↦ decide (c ≠ 13)) = true := by decide
    exact fun text htext ↦ forall_mem_of_all (hall text htext)
  intro c hc
  simp only [List.mem_append] at hc
  rcases hc with ((((((hc | hc) | hc) | hc) | hc) | hc) | hc) | hc
  · exact hascii "HTTP/" (by decide) c hc
  · exact hdecimal _ c hc
  · exact hascii "." (by decide) c hc
  · exact hdecimal _ c hc
  · exact hascii " " (by decide) c hc
  · exact hdecimal _ c hc
  · exact hascii " " (by decide) c hc
  · exact hascii "OK" (by decide) c hc

/-- The `Connection` header that an answer writes. -/
def connectionLine (close : Bool) : List UInt8 :=
  if close then ascii "Connection: close" else ascii "Connection: keep-alive"

/-- The header lines of an answer. -/
theorem responseText_lines (keepAlive : Bool) (request : HttpRequest) :
    ∃ text, (responseTo keepAlive request).dump = some text ∧
      headerLines text = [connectionLine (request.close && !keepAlive),
        ascii "content-length: " ++ decimal 22] := by
  obtain ⟨close, hclose⟩ : ∃ close, close = (request.close && !keepAlive) := ⟨_, rfl⟩
  have hline : ∀ c ∈ connectionLine close, c ≠ 13 := by
    cases close <;> exact forall_mem_of_all (by decide)
  have hlength : ∀ c ∈ ascii "content-length: " ++ decimal 22, c ≠ 13 :=
    forall_mem_of_all (by decide)
  have hdump : (responseTo keepAlive request).dump =
      some ((ascii "HTTP/" ++ decimal (request.version >>> 4).toNat ++ ascii "." ++
        decimal (request.version &&& 0x0F).toNat ++ ascii " " ++ decimal 200 ++ ascii " " ++
        ascii "OK") ++ (crlf ++ (connectionLine close ++ (crlf ++
          (ascii "content-length: " ++ decimal 22 ++ (crlf ++ ([] ++ (crlf ++
            ascii "http response from cll")))))))) := by
    have hreason : httpStatusToString 200 = some "OK" := rfl
    have hnone : (OrderedMap.empty : MapType).find (ascii "connection") = none := rfl
    have hentries : (OrderedMap.empty : MapType).entries = [] := rfl
    have hbody : ascii "http response from cll" ≠ [] := by decide
    have hsize : (ascii "http response from cll").length = 22 := by decide
    simp only [responseTo, HttpResponse.ofVersion, HttpResponse.init, HttpResponse.setBody,
      HttpResponse.dump, hreason, Option.map_some, ← hclose, hnone, if_true,
      if_pos hbody, hsize, hentries, connectionLine, List.flatMap_nil, List.append_nil,
      List.append_assoc, List.nil_append]
  refine ⟨_, hdump, ?_⟩
  rw [headerLines, lines_append (statusLine_no_cr request.version), lines_append hline,
    lines_append hlength, lines_append fun c hc ↦ absurd hc List.not_mem_nil, ← hclose]
  have hfull : connectionLine close ≠ [] := by cases close <;> decide
  simp only [List.tail_cons]
  rw [List.takeWhile_cons_of_pos (by simpa using hfull), List.takeWhile_cons_of_pos (by decide),
    List.takeWhile_cons_of_neg (by decide)]

theorem says_keepAlive_iff {close : Bool} {text : List UInt8}
    (hlines : headerLines text = [connectionLine close, ascii "content-length: " ++ decimal 22]) :
    Says "keep-alive" text ↔ close = false := by
  rw [Says, hlines]
  cases close <;> decide

theorem says_close_iff {close : Bool} {text : List UInt8}
    (hlines : headerLines text = [connectionLine close, ascii "content-length: " ++ decimal 22]) :
    Says "close" text ↔ close = true := by
  rw [Says, hlines]
  cases close <;> decide

/-! ### The requests -/

variable (lib) in
/-- `http_parser_execute` changes the user data only through the callbacks. -/
def CallsBackOnly : Prop :=
  ∀ (σ : Type) (settings : Callback → σ → ℕ × σ) (data : List UInt8) (state : lib.Parser × σ),
    ∃ callbacks : List Callback, (lib.execute settings data state).2.2 =
      callbacks.foldl (fun user callback ↦ (settings callback user).2) state.2

theorem close_onCallback (parseUrl : List UInt8 → Option UrlFields) (callback : Callback)
    (target : RequestTarget) :
    (target.onCallback parseUrl callback).2.data.close = target.data.close := by
  cases callback with
  | url at_ =>
    simp only [RequestTarget.onCallback, RequestTarget.onUrl]
    cases parseUrl at_ <;> rfl
  | _ => rfl

theorem close_foldl_onCallback (parseUrl : List UInt8 → Option UrlFields)
    (callbacks : List Callback) (target : RequestTarget) :
    (callbacks.foldl (fun now callback ↦ (now.onCallback parseUrl callback).2)
      target).data.close = target.data.close := by
  induction callbacks generalizing target with
  | nil => rfl
  | cons callback rest ih => rw [List.foldl_cons, ih, close_onCallback]

/-- Assumes: a library that works through the callbacks. No call of the parser sets `m_close`. -/
theorem close_execute (hlib : CallsBackOnly lib) (parser : HttpRequestParser lib)
    (data : List UInt8) : (parser.execute data).2.getData.close = parser.getData.close := by
  obtain ⟨callbacks, hcallbacks⟩ := hlib RequestTarget (RequestTarget.onCallback lib.parseUrl) data
    (parser.parser, parser.target)
  have htarget : (parser.execute data).2.target = callbacks.foldl
      (fun now callback ↦ (now.onCallback lib.parseUrl callback).2) parser.target := hcallbacks
  rw [HttpRequestParser.getData, htarget, close_foldl_onCallback]
  rfl

theorem close_recvLoop (hlib : CallsBackOnly lib) (parser : HttpRequestParser lib)
    (buffer : List UInt8) (conn : Connection) {request : HttpRequest}
    (hrequest : (recvLoop parser buffer conn).1 = some request) :
    request.close = parser.getData.close := by
  fun_induction recvLoop parser buffer conn with
  | case1 parser buffer conn hfinished =>
    rw [← Option.some.inj hrequest]
  | case2 parser buffer conn hunfinished got hnothing =>
    exact absurd hrequest (by simp)
  | case3 parser buffer conn hunfinished got hgot parsed hfailed =>
    exact absurd hrequest (by simp)
  | case4 parser buffer conn hunfinished got hgot parsed hparsed ih =>
    rw [ih hrequest]
    exact close_execute hlib parser _

/-- Assumes: a library that works through the callbacks. No request received has `m_close` set. -/
theorem close_of_mem_received (hlib : CallsBackOnly lib) (conn : Connection) :
    ∀ arrived ∈ received lib conn, arrived.2.close = false := by
  fun_induction received lib conn with
  | case1 conn rest hnone =>
    intro arrived harrived
    exact absurd harrived List.not_mem_nil
  | case2 conn request rest hsome ih =>
    refine List.forall_mem_cons.mpr ⟨?_, ih⟩
    exact close_recvLoop hlib (HttpRequestParser.init lib) [] conn (congrArg Prod.fst hsome)

/-! ### The session -/

theorem handleClient_eq (keepAlive : Bool) (conn : Connection) :
    handleClient lib keepAlive conn =
      match recvRequest lib conn with
      | (none, _) => [.recv none]
      | (some request, rest) =>
        match (responseTo keepAlive request).dump with
        | none => [.recv (some request)]
        | some text =>
          .recv (some request) :: .send text ::
            if keepAlive then handleClient lib keepAlive rest else [] := by
  rw [handleClient]
  split
  · next rest hnone => rw [hnone]
  · next request rest hsome => rw [hsome]

theorem handleClient_none {keepAlive : Bool} {conn rest : Connection}
    (hnone : recvRequest lib conn = (none, rest)) :
    handleClient lib keepAlive conn = [.recv none] := by
  rw [handleClient_eq, hnone]

theorem handleClient_some {keepAlive : Bool} {conn rest : Connection} {request : HttpRequest}
    {text : List UInt8} (hsome : recvRequest lib conn = (some request, rest))
    (htext : (responseTo keepAlive request).dump = some text) :
    handleClient lib keepAlive conn = .recv (some request) :: .send text ::
      if keepAlive then handleClient lib keepAlive rest else [] := by
  rw [handleClient_eq, hsome]
  simp only [htext]

theorem received_eq (conn : Connection) :
    received lib conn =
      match recvRequest lib conn with
      | (none, _) => []
      | (some request, rest) => (conn.consumed rest, request) :: received lib rest := by
  rw [received]
  split
  · next rest hnone => rw [hnone]
  · next request rest hsome => rw [hsome]

theorem received_none {conn rest : Connection} (hnone : recvRequest lib conn = (none, rest)) :
    received lib conn = [] := by
  rw [received_eq, hnone]

theorem received_some {conn rest : Connection} {request : HttpRequest}
    (hsome : recvRequest lib conn = (some request, rest)) :
    received lib conn = (conn.consumed rest, request) :: received lib rest := by
  rw [received_eq, hsome]

theorem readsOn_handleClient (keepAlive : Bool) (conn : Connection) :
    ReadsOn (handleClient lib keepAlive conn) := by
  rw [handleClient]
  split
  · exact ⟨_, _, rfl⟩
  · split <;> exact ⟨_, _, rfl⟩

/-- Assumes: a library that works through the callbacks. The session is consistent exactly when no
request is received, or the server keeps connections alive and no request that arrives carries
`close`. -/
theorem consistent_received_iff (hlib : CallsBackOnly lib) (keepAlive : Bool)
    (conn : Connection) :
    Consistent ((received lib conn).map Prod.fst) (handleClient lib keepAlive conn) ↔
      received lib conn = [] ∨
        (keepAlive = true ∧ ∀ arrived ∈ received lib conn, ¬ CarriesClose arrived.1) := by
  have hclose := close_of_mem_received hlib conn
  fun_induction received lib conn with
  | case1 conn rest hnone =>
    rw [handleClient_none hnone]
    exact iff_of_true trivial (Or.inl rfl)
  | case2 conn request rest hsome ih =>
    obtain ⟨hopen, hrest⟩ := List.forall_mem_cons.mp hclose
    obtain ⟨text, htext, hlines⟩ := responseText_lines keepAlive request
    rw [hopen, Bool.false_and] at hlines
    have hkeep : Says "keep-alive" text := (says_keepAlive_iff hlines).mpr rfl
    have hnotClose : ¬ Says "close" text := fun hsays ↦
      Bool.false_ne_true ((says_close_iff hlines).mp hsays)
    rw [handleClient_some hsome htext, List.map_cons, Consistent]
    cases keepAlive with
    | false =>
      have hstops : ¬ ReadsOn [] := fun ⟨_, _, hnil⟩ ↦ List.cons_ne_nil _ _ hnil.symm
      simp [hstops, hkeep]
    | true =>
      have hgoes : ReadsOn (handleClient lib true rest) := readsOn_handleClient true rest
      simp only [if_true, hgoes, hkeep, hnotClose, true_and, imp_false, ih hrest,
        List.cons_ne_nil, false_or, List.forall_mem_cons]
      refine and_congr_right fun _ ↦ ⟨?_, Or.inr⟩
      rintro (hnil | hnone)
      · rw [hnil]
        exact fun other hother ↦ absurd hother List.not_mem_nil
      · exact hnone

/-! ### Messages that arrive one at a time -/

/-- A well-formed message that one read returns whole and the parser takes. -/
structure Receivable (lib : HttpParserLibrary) (m : RequestMessage) : Prop where
  wellFormed : m.WellFormed
  length_le : m.text.length ≤ buffSize
  reports : Reports lib m
  url_ok : (lib.parseUrl m.url).isSome

/-- A message that is parsed alone is parsed whole, to the request that its callbacks leave. -/
theorem completeRequest_of_reports {m : RequestMessage} {fields : UrlFields}
    (hm : m.WellFormed) (hlength : m.text.length ≤ buffSize) (hreports : Reports lib m)
    (hurl : lib.parseUrl m.url = some fields) :
    CompleteRequest lib m.text ∧ (parsedAlone lib m.text).2.getData = parsedRequest m fields := by
  obtain ⟨field, hcalls⟩ := runCallbacks_message hurl
  obtain ⟨parser, hexecute, herrno⟩ := hreports hm _ _ _ _ hcalls
  have hparsed : parsedAlone lib m.text =
      (m.text.length, ⟨parser, parsedRequest m fields, true, field⟩) := by
    simp only [parsedAlone, HttpRequestParser.execute, HttpRequestParser.init, hexecute]
  have hne : m.text ≠ [] := by
    rw [m.text_eq_lines]
    exact List.append_ne_nil_of_left_ne_nil m.requestLine_ne_nil _
  exact ⟨⟨hne, hlength, by rw [hparsed], by rw [hparsed]; exact herrno, by rw [hparsed]; rfl⟩,
    by rw [hparsed]; rfl⟩

/-- Assumes: messages that arrive one in a read. The bytes of every request are its message. -/
theorem received_messages {messages : List RequestMessage}
    (hmessages : ∀ m ∈ messages, Receivable lib m) :
    (received lib ⟨messages.map RequestMessage.text, true⟩).map Prod.fst =
      messages.map RequestMessage.text := by
  induction messages with
  | nil =>
    rw [List.map_nil, received_none recvRequest_nothing]
    rfl
  | cons m others ih =>
    obtain ⟨hm, hothers⟩ := List.forall_mem_cons.mp hmessages
    obtain ⟨fields, hfields⟩ := Option.isSome_iff_exists.mp hm.url_ok
    obtain ⟨hcomplete, -⟩ :=
      completeRequest_of_reports hm.wellFormed hm.length_le hm.reports hfields
    have hconsumed : Connection.consumed ⟨m.text :: others.map RequestMessage.text, true⟩
        ⟨others.map RequestMessage.text, true⟩ = m.text := by
      simp only [Connection.consumed, Connection.pending, List.flatten_cons, List.length_append,
        Nat.add_sub_cancel, List.take_left]
    rw [List.map_cons, received_some (recvRequest_whole hcomplete _), List.map_cons, hconsumed,
      ih hothers]

/-- Assumes: a library that works through the callbacks. The session is consistent exactly when no
request is received, or the server keeps connections alive and no request that arrives carries
`close`. For well-formed messages that arrive one in a read: exactly when there is none, or the
server keeps connections alive and no message has a connection header with the option `close`. -/
theorem handleClient_consistent_iff (hlib : CallsBackOnly lib) (keepAlive : Bool) :
    (∀ conn : Connection,
      Consistent ((received lib conn).map Prod.fst) (handleClient lib keepAlive conn) ↔
        received lib conn = [] ∨
          (keepAlive = true ∧ ∀ arrived ∈ received lib conn, ¬ CarriesClose arrived.1)) ∧
    ∀ messages : List RequestMessage, (∀ m ∈ messages, Receivable lib m) →
      (Consistent (messages.map RequestMessage.text)
          (handleClient lib keepAlive ⟨messages.map RequestMessage.text, true⟩) ↔
        messages = [] ∨ (keepAlive = true ∧ ∀ m ∈ messages, ∀ header ∈ m.headers,
          SameName header.1 (ascii "Connection") →
            ascii "close" ∉ connectionOptions header.2)) := by
  refine ⟨consistent_received_iff hlib keepAlive, fun messages hmessages ↦ ?_⟩
  have htexts := received_messages hmessages
  have hempty : received lib ⟨messages.map RequestMessage.text, true⟩ = [] ↔ messages = [] := by
    rw [← List.map_eq_nil_iff (f := Prod.fst), htexts, List.map_eq_nil_iff]
  have hcarries : (∀ arrived ∈ received lib ⟨messages.map RequestMessage.text, true⟩,
      ¬ CarriesClose arrived.1) ↔ ∀ m ∈ messages, ¬ CarriesClose m.text := by
    rw [← List.forall_mem_map (f := Prod.fst) (P := fun bytes ↦ ¬ CarriesClose bytes), htexts,
      List.forall_mem_map]
  have hconsistent := consistent_received_iff hlib keepAlive
    ⟨messages.map RequestMessage.text, true⟩
  rw [htexts, hempty, hcarries] at hconsistent
  refine hconsistent.trans (or_congr_right (and_congr_right fun _ ↦ forall₂_congr fun m hm ↦ ?_))
  rw [(hmessages m hm).wellFormed.carriesClose_text_iff]
  simp only [not_exists, not_and]

end Session

theorem sampleNotify_calls {σ : Type} (settings : Callback → σ → ℕ × σ) (index : ℕ) (user : σ) :
    ∃ callbacks : List Callback, (sampleNotify settings index user).2 =
      callbacks.foldl (fun now callback ↦ (settings callback now).2) user := by
  simp only [sampleNotify]
  split_ifs with hfirst hurl hlast hcomplete
  · exact ⟨[.messageBegin], rfl⟩
  · exact ⟨[.url [47]], rfl⟩
  · exact ⟨[.headersComplete 1 1 .GET, .messageComplete], rfl⟩
  · exact ⟨[.headersComplete 1 1 .GET], rfl⟩
  · exact ⟨[], rfl⟩

theorem callsBackOnly_sampleLibrary : CallsBackOnly sampleLibrary := by
  intro σ settings data
  change ∀ state : Option ℕ × σ, ∃ callbacks : List Callback,
    (sampleExecute settings data state).2.2 =
      callbacks.foldl (fun user callback ↦ (settings callback user).2) state.2
  induction data with
  | nil => exact fun state ↦ ⟨[], rfl⟩
  | cons byte rest ih =>
    rintro ⟨position, user⟩
    cases position with
    | none => exact ⟨[], rfl⟩
    | some index =>
      obtain ⟨notified, hnotified⟩ := sampleNotify_calls settings index user
      simp only [sampleExecute]
      split_ifs with hbyte hgood
      · obtain ⟨later, hlater⟩ := ih (some ((index + 1) % 18), (sampleNotify settings index user).2)
        refine ⟨notified ++ later, ?_⟩
        rw [List.foldl_append, ← hnotified]
        exact hlater
      · exact ⟨notified, hnotified⟩
      · exact ⟨[], rfl⟩

theorem consumed_sampleMessage :
    Connection.consumed ⟨[sampleMessage], true⟩ ⟨[], true⟩ = sampleMessage := by
  decide

/-- A server that does not keep connections alive answers its one request with `keep-alive`. -/
theorem handleClient_without_keepAlive : CompleteRequest sampleLibrary sampleMessage ∧
    ¬ Consistent [sampleMessage] (handleClient sampleLibrary false ⟨[sampleMessage], true⟩) := by
  refine ⟨completeRequest_sampleMessage, fun hconsistent ↦ ?_⟩
  obtain ⟨text, htext, hlines⟩ :=
    responseText_lines false (parsedAlone sampleLibrary sampleMessage).2.getData
  rw [handleClient_some (recvRequest_whole completeRequest_sampleMessage []) htext] at hconsistent
  obtain ⟨request, rest, hnil⟩ := hconsistent.1.mpr ((says_keepAlive_iff hlines).mpr rfl)
  exact absurd hnil (by simp)

theorem handleClient_keepAlive_consistent :
    Consistent [sampleMessage] (handleClient sampleLibrary true ⟨[sampleMessage], true⟩) := by
  have hreceived : received sampleLibrary ⟨[sampleMessage], true⟩ =
      [(sampleMessage, (parsedAlone sampleLibrary sampleMessage).2.getData)] := by
    rw [received_some (recvRequest_whole completeRequest_sampleMessage []), consumed_sampleMessage,
      received_none recvRequest_nothing]
  have hconsistent := (handleClient_consistent_iff callsBackOnly_sampleLibrary true).1
    ⟨[sampleMessage], true⟩
  rw [hreceived] at hconsistent
  refine hconsistent.mpr (Or.inr ⟨rfl, ?_⟩)
  intro arrived harrived
  rw [List.mem_singleton.mp harrived]
  decide

end Cczoe.Http
