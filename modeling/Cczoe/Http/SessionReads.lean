import Cczoe.Http.ParserCallbacks

/-!
# Requests received by `HttpSession::recvRequest`

`recvRequest` reads into one buffer until its parser has finished, and after every read gives the
parser the whole buffer. It makes a new parser and a new buffer on every call.

`recvRequests_of_whole_reads` says when this is right: when every read returns one whole request. A
request that arrives in two reads is fed to the parser again from its first byte (`recvLoop_turn`),
and bytes behind a request that arrive with it are parsed into the same request and then lost with
the buffer. `sampleLibrary` is a small incremental parser on which both go wrong.
-/

set_option autoImplicit false
set_option relaxedAutoImplicit false

namespace Cczoe.Http

/-! ### The connection -/

/-- A connection on which successive `read` calls find the given chunks. -/
structure Connection where
  chunks : List (List UInt8)
  connected : Bool
  deriving DecidableEq, Repr

namespace Connection

/-- `read` with room for `room` bytes. No bytes stand for a returned value that is not positive: the
connection is closed, no room was given, or nothing more arrives. -/
def read (room : ℕ) (conn : Connection) : List UInt8 × Connection :=
  if conn.connected = false ∨ room = 0 then ([], conn)
  else
    match conn.chunks with
    | [] => ([], conn)
    | chunk :: rest =>
      (chunk.take room,
        { conn with chunks := if chunk.length ≤ room then rest else chunk.drop room :: rest })

def close (conn : Connection) : Connection := { conn with connected := false }

theorem length_read_le (room : ℕ) (conn : Connection) : (conn.read room).1.length ≤ room := by
  unfold read
  split_ifs
  · exact Nat.zero_le _
  · cases conn.chunks with
    | nil => exact Nat.zero_le _
    | cons chunk rest => exact List.length_take_le _ _

/-- Assumes: a chunk that fits. It is returned whole. -/
theorem read_whole {room : ℕ} {chunk : List UInt8} {rest : List (List UInt8)} (hroom : 0 < room)
    (hfits : chunk.length ≤ room) : read room ⟨chunk :: rest, true⟩ = (chunk, ⟨rest, true⟩) := by
  rw [read, if_neg (by simp; omega)]
  simp only [List.take_of_length_le hfits, if_pos hfits]

end Connection

/-! ### `recvRequest` -/

section Receiving

variable {lib : HttpParserLibrary}

def buffSize : ℕ := 4096

/-- The loop of `recvRequest`. The bytes read so far are the front of the buffer. -/
def recvLoop (parser : HttpRequestParser lib) (buffer : List UInt8) (conn : Connection) :
    Option HttpRequest × Connection :=
  if parser.finished then (some parser.getData, conn)
  else
    let got := conn.read (buffSize - buffer.length)
    if got.1 = [] then (none, got.2.close)
    else
      let parsed := parser.execute (buffer ++ got.1)
      if parsed.2.error ≠ 0 ∨ parsed.1 = 0 then (none, got.2.close)
      else recvLoop parsed.2 (buffer ++ got.1) got.2
termination_by buffSize - buffer.length
decreasing_by
  have hle : got.1.length ≤ buffSize - buffer.length := Connection.length_read_le _ conn
  have hpos : 0 < got.1.length := List.length_pos_of_ne_nil (by assumption)
  change buffSize - (buffer ++ got.1).length < buffSize - buffer.length
  rw [List.length_append]
  omega

variable (lib)

/-- `recvRequest`. -/
def recvRequest (conn : Connection) : Option HttpRequest × Connection :=
  recvLoop (HttpRequestParser.init lib) [] conn

/-- `count` successive calls of `recvRequest` on one session. -/
def recvRequests : ℕ → Connection → List (Option HttpRequest) × Connection
  | 0, conn => ([], conn)
  | count + 1, conn =>
    let first := recvRequest lib conn
    let others := recvRequests count first.2
    (first.1 :: others.1, others.2)

/-- A parser that was given a message alone, in a single buffer. -/
def parsedAlone (message : List UInt8) : ℕ × HttpRequestParser lib :=
  (HttpRequestParser.init lib).execute message

/-- A complete well-formed request that fits the buffer. -/
structure CompleteRequest (message : List UInt8) : Prop where
  nonempty : message ≠ []
  length_le : message.length ≤ buffSize
  parsed : (parsedAlone lib message).1 = message.length
  error_eq : (parsedAlone lib message).2.error = 0
  finished : (parsedAlone lib message).2.finished = true

/-- As many calls as there are requests return them in order, each as it is parsed alone. -/
def ReceivesEach (requests chunks : List (List UInt8)) : Prop :=
  (recvRequests lib requests.length ⟨chunks, true⟩).1 =
    requests.map fun message ↦ some (parsedAlone lib message).2.getData

variable {lib}

/-- Assumes: a parser that has not finished, and a chunk that fits. The parser is given the buffer
from the first byte on. -/
theorem recvLoop_read {parser : HttpRequestParser lib} {buffer chunk : List UInt8}
    {rest : List (List UInt8)} (hunfinished : parser.finished = false) (hchunk : chunk ≠ [])
    (hfits : buffer.length + chunk.length ≤ buffSize) :
    recvLoop parser buffer ⟨chunk :: rest, true⟩ =
      let parsed := parser.execute (buffer ++ chunk)
      if parsed.2.error ≠ 0 ∨ parsed.1 = 0 then (none, ⟨rest, false⟩)
      else recvLoop parsed.2 (buffer ++ chunk) ⟨rest, true⟩ := by
  have hpos := List.length_pos_of_ne_nil hchunk
  have hread : Connection.read (buffSize - buffer.length) ⟨chunk :: rest, true⟩ =
      (chunk, ⟨rest, true⟩) := Connection.read_whole (by omega) (by omega)
  rw [recvLoop, if_neg (by rw [hunfinished]; exact Bool.false_ne_true)]
  simp only [hread]
  rw [if_neg hchunk]
  rfl

/-- Assumes: also, the parser goes on. One turn of the loop is over. -/
theorem recvLoop_turn {parser : HttpRequestParser lib} {buffer chunk : List UInt8}
    {rest : List (List UInt8)} (hunfinished : parser.finished = false) (hchunk : chunk ≠ [])
    (hfits : buffer.length + chunk.length ≤ buffSize)
    (herror : (parser.execute (buffer ++ chunk)).2.error = 0)
    (hparsed : (parser.execute (buffer ++ chunk)).1 ≠ 0) :
    recvLoop parser buffer ⟨chunk :: rest, true⟩ =
      recvLoop (parser.execute (buffer ++ chunk)).2 (buffer ++ chunk) ⟨rest, true⟩ := by
  rw [recvLoop_read hunfinished hchunk hfits]
  exact if_neg (by simp [herror, hparsed])

/-- Assumes: also, the parser reports an error on the buffer with the chunk. The call closes the
connection and returns no request. -/
theorem recvLoop_error {parser : HttpRequestParser lib} {buffer chunk : List UInt8}
    {rest : List (List UInt8)} (hunfinished : parser.finished = false) (hchunk : chunk ≠ [])
    (hfits : buffer.length + chunk.length ≤ buffSize)
    (herror : (parser.execute (buffer ++ chunk)).2.error ≠ 0) :
    recvLoop parser buffer ⟨chunk :: rest, true⟩ = (none, ⟨rest, false⟩) := by
  rw [recvLoop_read hunfinished hchunk hfits]
  exact if_pos (Or.inl herror)

/-- Nothing more arrives: the call returns no request. -/
theorem recvRequest_nothing : recvRequest lib ⟨[], true⟩ = (none, ⟨[], false⟩) := by
  rw [recvRequest, recvLoop]
  rfl

/-- Assumes: a complete request that one read returns. `recvRequest` returns it and leaves what
follows. -/
theorem recvRequest_whole {message : List UInt8} (hmessage : CompleteRequest lib message)
    (rest : List (List UInt8)) :
    recvRequest lib ⟨message :: rest, true⟩ =
      (some (parsedAlone lib message).2.getData, ⟨rest, true⟩) := by
  have hparsed : (parsedAlone lib message).1 ≠ 0 := by
    have hpos := List.length_pos_of_ne_nil hmessage.nonempty
    rw [hmessage.parsed]
    omega
  have hfits : ([] : List UInt8).length + message.length ≤ buffSize := by
    rw [List.length_nil, Nat.zero_add]
    exact hmessage.length_le
  rw [recvRequest, recvLoop_turn rfl hmessage.nonempty hfits hmessage.error_eq hparsed, recvLoop]
  exact if_pos hmessage.finished

/-- Assumes: complete requests, and reads that return one whole request each. The calls return the
requests in order. -/
theorem recvRequests_of_whole_reads {requests chunks : List (List UInt8)}
    (hrequests : ∀ message ∈ requests, CompleteRequest lib message) (hreads : chunks = requests) :
    ReceivesEach lib requests chunks := by
  subst hreads
  unfold ReceivesEach
  induction chunks with
  | nil => rfl
  | cons message rest ih =>
    obtain ⟨hmessage, hrest⟩ := List.forall_mem_cons.mp hrequests
    rw [List.length_cons, recvRequests, recvRequest_whole hmessage, List.map_cons]
    exact congrArg (_ :: ·) (ih hrest)

end Receiving

/-! ### A small incremental parser -/

/-- Feeding a message in consecutive pieces is feeding the concatenation. -/
def Incremental (lib : HttpParserLibrary) : Prop :=
  ∀ (σ : Type) (settings : Callback → σ → ℕ × σ) (first second : List UInt8)
    (state : lib.Parser × σ),
    (lib.execute settings first state).1 = first.length →
    lib.execute settings (first ++ second) state =
      (first.length + (lib.execute settings second (lib.execute settings first state).2).1,
        (lib.execute settings second (lib.execute settings first state).2).2)

/-- `GET / HTTP/1.1`, with an empty header block. -/
def sampleMessage : List UInt8 :=
  [71, 69, 84, 32, 47, 32, 72, 84, 84, 80, 47, 49, 46, 49, 13, 10, 13, 10]

section Sample

variable {σ : Type} (settings : Callback → σ → ℕ × σ)

/-- The callbacks of the sample parser at byte `index` of a message. -/
def sampleNotify (index : ℕ) (user : σ) : ℕ × σ :=
  if index = 0 then settings .messageBegin user
  else if index = 5 then settings (.url [47]) user
  else if index = 17 then
    let complete := settings (.headersComplete 1 1 .GET) user
    if complete.1 = 0 then settings .messageComplete complete.2 else complete
  else (0, user)

/-- A parser of the sample message, over and over. Its state is the number of bytes of the message
it has seen, none after an error. -/
def sampleExecute : List UInt8 → Option ℕ × σ → ℕ × Option ℕ × σ
  | [], state => (0, state)
  | _ :: _, (none, user) => (0, none, user)
  | byte :: rest, (some index, user) =>
    if sampleMessage[index]? = some byte then
      let notified := sampleNotify settings index user
      if notified.1 = 0 then
        let others := sampleExecute rest (some ((index + 1) % 18), notified.2)
        (others.1 + 1, others.2)
      else (0, none, notified.2)
    else (0, none, user)

theorem sampleExecute_append (first second : List UInt8) :
    ∀ state : Option ℕ × σ, (sampleExecute settings first state).1 = first.length →
      sampleExecute settings (first ++ second) state =
        (first.length + (sampleExecute settings second (sampleExecute settings first state).2).1,
          (sampleExecute settings second (sampleExecute settings first state).2).2) := by
  induction first with
  | nil =>
    intro state _
    rw [List.nil_append, List.length_nil, Nat.zero_add]
    rfl
  | cons byte rest ih =>
    rintro ⟨position, user⟩
    cases position with
    | none =>
      intro hwhole
      cases hwhole
    | some index =>
      simp only [List.cons_append, sampleExecute, List.length_cons]
      split_ifs with hbyte hnotified
      · intro hwhole
        rw [ih (some ((index + 1) % 18), (sampleNotify settings index user).2)
          (Nat.succ.inj hwhole)]
        exact Prod.ext (Nat.add_right_comm _ _ _) rfl
      · intro hwhole
        cases hwhole
      · intro hwhole
        cases hwhole

end Sample

/-- It accepts and rejects what `http_parser` does on the pieces of the sample message. -/
def sampleLibrary : HttpParserLibrary where
  Parser := Option ℕ
  init := some 0
  execute := sampleExecute
  errno state := if state.isSome then 0 else 1
  parseUrl url := if url = [47] then some ⟨some url, none, none⟩ else none

theorem incremental_sampleLibrary : Incremental sampleLibrary := fun _ settings first second state ↦
  sampleExecute_append settings first second state

theorem completeRequest_sampleMessage : CompleteRequest sampleLibrary sampleMessage where
  nonempty := by decide
  length_le := by decide
  parsed := rfl
  error_eq := rfl
  finished := rfl

/-- Two requests in two reads. -/
theorem recvRequests_two_reads :
    ReceivesEach sampleLibrary [sampleMessage, sampleMessage] [sampleMessage, sampleMessage] := by
  apply recvRequests_of_whole_reads
  · intro message hmessage
    have hsample : message = sampleMessage := by simpa using hmessage
    rw [hsample]
    exact completeRequest_sampleMessage
  · rfl

/-- A request cut behind `GET / HT` is not received: after the second read the parser, which waits
for the next letter of `HTTP`, is given the request from its first letter on. Of two requests in one
read the second is not received either. -/
theorem recvRequests_cut_request :
    Incremental sampleLibrary ∧ CompleteRequest sampleLibrary sampleMessage ∧
      ¬ ReceivesEach sampleLibrary [sampleMessage] [sampleMessage.take 8, sampleMessage.drop 8] ∧
      ¬ ReceivesEach sampleLibrary [sampleMessage, sampleMessage]
        [sampleMessage ++ sampleMessage] := by
  refine ⟨incremental_sampleLibrary, completeRequest_sampleMessage, ?_, ?_⟩
  · have hcut : recvRequest sampleLibrary ⟨[sampleMessage.take 8, sampleMessage.drop 8], true⟩ =
        (none, ⟨[], false⟩) := by
      rw [recvRequest, recvLoop_turn rfl (by decide) (by decide) rfl (by decide)]
      exact recvLoop_error rfl (by decide) (by decide) (by decide)
    intro hreceives
    simp [ReceivesEach, recvRequests, hcut] at hreceives
  · have hboth : recvRequest sampleLibrary ⟨[sampleMessage ++ sampleMessage], true⟩ =
        (some (parsedAlone sampleLibrary (sampleMessage ++ sampleMessage)).2.getData,
          ⟨[], true⟩) := by
      rw [recvRequest, recvLoop_turn rfl (by decide) (by decide) rfl (by decide), recvLoop]
      rfl
    intro hreceives
    simp [ReceivesEach, recvRequests, hboth, recvRequest_nothing] at hreceives

end Cczoe.Http
