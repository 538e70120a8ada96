import Cczoe.Http.ParserHeaderLines

/-!
# The vendored parser reads a message

Given the text of a well-formed message in one buffer, `http_parser_execute` makes the callbacks of
the message, one for every element, when no header name begins with `Transfer-Encoding`
(`leads_finish`), and refuses it otherwise (`leads_refusal`).
-/

set_option autoImplicit false
set_option relaxedAutoImplicit false

namespace Cczoe.Http

open Foundations

section Leading

variable {σ : Type} {settings : Callback → σ → ℕ × σ} {len : ℕ}
  {goal : ParseM σ (Exec σ) → Prop} {at_ : List UInt8} {ch : UInt8} {left : ℕ} {p : Parser}
  {user : σ} {m : RequestMessage} {length : Option ℕ} {encoding : Bool} {nread : ℕ}

/-! ### The end of the message -/

/-- The run has come to the end of the buffer without an error. -/
def Finishes (final : σ) (outcome : ParseM σ (Exec σ)) : Prop :=
  ∃ p : Parser, p.httpErrno = .ok ∧ outcome = .ok ⟨p, noMarks, final⟩

/-- The call has returned with an error. -/
def Refuses (outcome : ParseM σ (Exec σ)) : Prop :=
  ∃ r : Returned σ, outcome = .error (.returned r) ∧ r.parser.httpErrno ≠ .ok

/-- The end of a message, in a state that completes it. -/
theorem resumes_complete [HeaderCounter] {final : σ} {q : Parser}
    (hloop : p.state.hasLoop = false) (hreact : p.react ch = q.complete .next)
    (hq : q.httpErrno = .ok) (hat : at_.length = 1)
    (hcalls : runCallbacks settings [.messageComplete] user = some final) :
    Resumes settings len (Finishes final) (left + 1) at_ ch ⟨p, noMarks, user⟩ := by
  obtain ⟨hzero, hcalls⟩ := runCallbacks_head hcalls
  cases hcalls
  refine resumes_advance at_.tail ⟨{ q with state := q.newMessage }, noMarks,
    (settings .messageComplete user).2⟩ ?_ (by rw [List.length_tail]; omega) ?_
  · rw [pass_eq_perform hloop]
    simp only [Exec.perform, hreact, Parser.complete, List.foldlM_cons, List.foldlM_nil, Exec.act]
    rw [call_ok (by exact hq) (by exact hzero)]
    rfl
  · rw [List.eq_nil_of_length_eq_zero (by rw [List.length_tail]; omega : at_.tail.length = 0)]
    exact leads_nil ⟨{ q with state := q.newMessage }, hq, rfl⟩

/-- The empty line behind the headers. -/
theorem atLine_empty [HeaderCounter] {tail : List UInt8} (hcount : nread + 1 ≤ maxHeaderSize)
    (hrest : ∀ p, InHead m length encoding .headersAlmostDone (nread + 1) p →
      Resumes settings len goal 4 (10 :: tail) 10 ⟨p, noMarks, user⟩) :
    AtLine settings len goal m length encoding (13 :: 10 :: tail) nread user := by
  intro p hp left ch hch
  cases hch
  have hreact : p.react 13 = p.goTo .headersAlmostDone := by
    simp only [Parser.react, hp.state_eq]
    rfl
  refine resumes_advance (10 :: tail) ⟨{ p with state := .headersAlmostDone }, noMarks, user⟩ ?_
    (Nat.lt_succ_self _) ?_
  · rw [pass_eq_perform (by rw [hp.state_eq]; rfl), hreact]
    rfl
  · refine leads_counted rfl (by rw [hp.nread_eq]; exact hcount) ?_
    rw [hp.nread_eq]
    exact hrest _ (hp.move .headersAlmostDone (nread + 1) p.headerState p.index)

/-- The line feed behind the headers, when nothing is wrong with the framing: the headers are
complete. -/
theorem resumes_headersComplete [HeaderCounter] {cbs : List Callback} {final : σ}
    {tail : List UInt8} (hmethod : m.method ≠ .CONNECT)
    (hp : InHead m length encoding .headersAlmostDone nread p)
    (hforbidden : (encoding && length.isSome) = false)
    (hcalls : runCallbacks settings
      (.headersComplete m.httpMajor m.httpMinor m.method :: cbs) user = some final)
    (hrest : ∀ p user, InHead m length encoding .headersDone nread p →
      runCallbacks settings cbs user = some final →
      Resumes settings len goal left (10 :: tail) 10 ⟨p, noMarks, user⟩) :
    Resumes settings len goal (left + 1) (10 :: tail) 10 ⟨p, noMarks, user⟩ := by
  obtain ⟨hzero, hcalls⟩ := runCallbacks_head hcalls
  have hmajor : p.httpMajor = m.httpMajor := congrArg Parser.httpMajor hp
  have hminor : p.httpMinor = m.httpMinor := congrArg Parser.httpMinor hp
  have hmethod' : p.method = m.method := congrArg Parser.method hp
  have htrailing : p.flags.trailing = false := congrArg (·.flags.trailing) hp
  have hupgrade : p.flags.upgrade = false := congrArg (·.flags.upgrade) hp
  have hchunked : p.flags.chunked = false := congrArg (·.flags.chunked) hp
  have hencoding : p.usesTransferEncoding = encoding := congrArg Parser.usesTransferEncoding hp
  have hlength : p.flags.contentlength = length.isSome := congrArg (·.flags.contentlength) hp
  have hreact : p.react 10 = ⟨{ p with state := .headersDone, upgrade := false },
      [.headersComplete], .reexecute⟩ := by
    simp only [Parser.react, hp.state_eq]
    simp only [Parser.headersAlmostDone, Parser.lengthForbidden, htrailing, hupgrade, hchunked,
      hencoding, hlength, hforbidden, hmethod', decide_eq_false hmethod, Bool.false_and,
      if_neg Bool.false_ne_true]
    rfl
  refine resumes_again (10 :: tail) 10 ⟨{ p with state := .headersDone, upgrade := false }, noMarks,
    (settings (.headersComplete m.httpMajor m.httpMinor m.method) user).2⟩ ?_ le_rfl
    (hrest _ _ ?_ hcalls)
  · rw [pass_eq_perform (by rw [hp.state_eq]; rfl)]
    simp only [Exec.perform, hreact, List.foldlM_cons, List.foldlM_nil, Exec.act,
      Exec.headersComplete, hmajor, hminor, hmethod', hzero]
    rfl
  · change ({ p.framing with state := .headersDone, upgrade := false } : Parser) = _
    rw [hp]
    rfl

/-- What comes behind the headers, by the content length and the transfer encoding. -/
theorem InHead.react_headersDone (hp : InHead m length encoding .headersDone nread p) :
    p.react 10 =
      if encoding then ({ p with nread := 0 } : Parser).failWith .invalidTransferEncoding
      else if length.getD ullongMax = 0 then ({ p with nread := 0 } : Parser).complete .next
      else if length.getD ullongMax ≠ ullongMax then
        ({ p with nread := 0 } : Parser).goTo .bodyIdentity
      else ({ p with nread := 0 } : Parser).complete .next := by
  have hupgrade : p.upgrade = false := congrArg Parser.upgrade hp
  have hskip : p.flags.skipbody = false := congrArg (·.flags.skipbody) hp
  have hchunked : p.flags.chunked = false := congrArg (·.flags.chunked) hp
  have hencoding : p.usesTransferEncoding = encoding := congrArg Parser.usesTransferEncoding hp
  have hlength : p.contentLength = length.getD ullongMax := congrArg Parser.contentLength hp
  have htype : p.type = .request := congrArg Parser.type hp
  have hneeds : ({ p with nread := 0 } : Parser).messageNeedsEof = false := if_pos htype
  have hstep : p.react 10 = p.headersDone := by
    simp only [Parser.react, hp.state_eq]
    exact if_neg (not_not_intro rfl)
  have hexit (q : Prop) : ¬ (p.upgrade = true ∧ q) := by
    rintro ⟨hup, -⟩
    rw [hupgrade] at hup
    exact absurd hup Bool.false_ne_true
  rw [hstep]
  unfold Parser.headersDone
  simp only
  rw [if_neg (hexit _), if_neg (by rw [hskip]; exact Bool.false_ne_true),
    if_neg (by rw [hchunked]; exact Bool.false_ne_true)]
  cases encoding with
  | true => rw [if_pos hencoding, if_pos ⟨htype, hp.lenient_eq⟩, if_pos rfl]
  | false =>
    rw [if_neg (by rw [hencoding]; exact Bool.false_ne_true), if_pos hneeds,
      if_neg Bool.false_ne_true, ← hlength]

/-- A message without a body is complete behind its headers. -/
theorem resumes_noBody [HeaderCounter] {final : σ} (hp : InHead m none false .headersDone nread p)
    (hcalls : runCallbacks settings [.messageComplete] user = some final) :
    Resumes settings len (Finishes final) (left + 1) [10] 10 ⟨p, noMarks, user⟩ := by
  refine resumes_complete (q := { p with nread := 0 }) (by rw [hp.state_eq]; rfl) ?_ hp.errno_eq rfl
    hcalls
  rw [hp.react_headersDone, Option.getD_none, if_neg nofun, if_neg (by decide),
    if_neg (not_not_intro rfl)]

/-- A body of the length that the headers have said, to the end of the buffer. -/
theorem leads_body [HeaderCounter] {body : List UInt8} {final : σ} (hne : body ≠ [])
    (hstate : p.state = .bodyIdentity) (hok : p.httpErrno = .ok) (hupgrade : p.upgrade = false)
    (hlength : p.contentLength = body.length)
    (hsize : body.length ≠ ullongMax)
    (hcalls : runCallbacks settings [.body body, .messageComplete] user = some final) :
    Leads settings len (Finishes final) body ⟨p, noMarks, user⟩ := by
  obtain ⟨hzero, hcalls⟩ := runCallbacks_head hcalls
  have hpos := List.length_pos_of_ne_nil hne
  obtain ⟨last, hlast⟩ : ∃ last, body.drop (body.length - 1) = [last] :=
    List.length_eq_one_iff.mp (by rw [List.length_drop]; omega)
  obtain ⟨ch, rest, rfl⟩ := List.exists_cons_of_ne_nil hne
  let q : Parser := { p with contentLength := 0, state := .messageDone }
  refine leads_uncounted (by rw [hstate]; rfl) (resumes_again [last] ch
    ⟨q, noMarks, (settings (.body (ch :: rest)) user).2⟩ ?_ (by simp) ?_)
  · unfold Exec.pass
    simp only [hstate, Exec.bodyIdentity, Exec.assertLength, hlength, min_self, mark_noMarks]
    rw [if_pos ⟨hpos.ne', hsize⟩]
    simp only [ok_bind, Nat.sub_self, if_true, hlast, List.tail_cons]
    rw [← List.append_nil (ch :: rest), report_ok _ (by exact hok) (by exact hzero)]
    simp only [List.append_nil]
    rfl
  · have hreact : q.react ch = q.complete .next := by
      change q.complete (if p.upgrade then .exit else .next) = _
      rw [hupgrade]
      rfl
    exact resumes_complete rfl hreact hok rfl hcalls

/-- The end of a message whose headers leave its framing clear. -/
theorem atLine_end [HeaderCounter] {final : σ} (hmethod : m.method ≠ .CONNECT)
    (hlength : length = if m.body ≠ [] then some m.body.length else none)
    (hsize : m.body.length < 2 ^ 63)
    (hcalls : runCallbacks settings (.headersComplete m.httpMajor m.httpMinor m.method ::
      ((if m.body ≠ [] then [.body m.body] else []) ++ [.messageComplete])) user = some final)
    (hcount : nread + 1 ≤ maxHeaderSize) :
    AtLine settings len (Finishes final) m length false (13 :: 10 :: m.body) nread user := by
  refine atLine_empty hcount fun p hp ↦ ?_
  refine resumes_headersComplete hmethod hp rfl hcalls fun p user hp hcalls ↦ ?_
  by_cases hbody : m.body = []
  · rw [if_neg (not_not_intro hbody)] at hlength hcalls
    subst hlength
    rw [hbody]
    exact resumes_noBody hp hcalls
  · rw [if_pos hbody] at hlength hcalls
    subst hlength
    have hpos := List.length_pos_of_ne_nil hbody
    have hmax : m.body.length ≠ ullongMax := by
      unfold ullongMax
      omega
    have hdone : p.react 10 = ({ p with nread := 0 } : Parser).goTo .bodyIdentity := by
      rw [hp.react_headersDone, Option.getD_some, if_neg nofun, if_neg hpos.ne', if_pos hmax]
    refine resumes_advance m.body ⟨{ p with nread := 0, state := .bodyIdentity }, noMarks, user⟩ ?_
      (Nat.lt_succ_self _) ?_
    · rw [pass_eq_perform (by rw [hp.state_eq]; rfl), hdone]
      rfl
    · exact leads_body hbody rfl hp.errno_eq (congrArg Parser.upgrade hp)
        (congrArg Parser.contentLength hp) hmax hcalls

/-- A state that fails returns an error. -/
theorem resumes_failWith [HeaderCounter] {q : Parser} {errno : HttpErrno}
    (hloop : p.state.hasLoop = false) (hreact : p.react ch = q.failWith errno) (hne : errno ≠ .ok) :
    Resumes settings len Refuses (left + 1) at_ ch ⟨p, noMarks, user⟩ := by
  have hfailed : Exec.pass settings len ⟨p, noMarks, user⟩ at_ ch =
      .error (.returned ⟨offset len at_, { q with httpErrno := errno }, user⟩) := by
    rw [pass_eq_perform hloop]
    simp only [Exec.perform, hreact]
    rfl
  exact resumes_stop hfailed ⟨_, rfl, hne⟩

/-- The end of a message with a name that begins with `Transfer-Encoding`: no length is known. -/
theorem atLine_refused [HeaderCounter] {final : σ} {cbs : List Callback} {tail : List UInt8}
    (hmethod : m.method ≠ .CONNECT)
    (hcalls : runCallbacks settings
      (.headersComplete m.httpMajor m.httpMinor m.method :: cbs) user = some final)
    (hcount : nread + 1 ≤ maxHeaderSize) :
    AtLine settings len Refuses m length true (13 :: 10 :: tail) nread user := by
  refine atLine_empty hcount fun p hp ↦ ?_
  by_cases hforbidden : (true && length.isSome) = false
  · refine resumes_headersComplete hmethod hp hforbidden hcalls fun p user hp _ ↦ ?_
    have hreact : p.react 10 =
        ({ p with nread := 0 } : Parser).failWith .invalidTransferEncoding := by
      rw [hp.react_headersDone]
      exact if_pos rfl
    exact resumes_failWith (by rw [hp.state_eq]; rfl) hreact (by decide)
  · have htrailing : p.flags.trailing = false := congrArg (·.flags.trailing) hp
    have hchunked : p.flags.chunked = false := congrArg (·.flags.chunked) hp
    have hencoding : p.usesTransferEncoding = true := congrArg Parser.usesTransferEncoding hp
    have hlength : p.flags.contentlength = length.isSome := congrArg (·.flags.contentlength) hp
    have hknown : length.isSome = true := by
      cases length with
      | none => exact absurd rfl hforbidden
      | some _ => rfl
    have hfails : p.lengthForbidden = true := by
      simp only [Parser.lengthForbidden, hencoding, hlength, hchunked, hp.lenient_eq, hknown]
      rfl
    have hreact : p.react 10 = p.failWith .unexpectedContentLength := by
      simp only [Parser.react, hp.state_eq]
      unfold Parser.headersAlmostDone
      rw [if_neg (not_not_intro rfl), if_neg (by rw [htrailing]; exact Bool.false_ne_true),
        if_pos hfails]
    exact resumes_failWith (by rw [hp.state_eq]; rfl) hreact (by decide)

/-! ### The whole message -/

/-- What the vendored parser asks of a well-formed message besides its form: header values without
control characters, a head that is not too long, and a length of the body that can be counted. -/
structure RequestMessage.Fits (m : RequestMessage) : Prop where
  values : ∀ header ∈ m.headers, ∀ c ∈ header.2, isHeaderChar c = true
  head_le : m.text.length ≤ maxHeaderSize + m.body.length
  body_lt : m.body.length < 2 ^ 63

/-- The text of a message, byte by byte where the parser looks at single bytes. -/
theorem text_eq (m : RequestMessage) : m.text =
    methodString m.method ++ 32 :: (m.url ++ 32 :: (72 :: 84 :: 84 :: 80 :: 47 ::
      (decimal m.httpMajor ++ 46 :: (decimal m.httpMinor ++ 13 :: 10 ::
        (m.headers.flatMap headerLine ++ 13 :: 10 :: m.body))))) := by
  have hlines : (m.headers.flatMap fun header ↦ header.1 ++ ascii ": " ++ header.2 ++ crlf) =
      m.headers.flatMap headerLine := by
    have hcolon : ascii ": " = [58, 32] := by decide
    have hbreak : crlf = [13, 10] := by decide
    simp only [hcolon, hbreak, List.append_assoc, List.cons_append, List.nil_append]
    rfl
  have hblank : ascii " " = [32] := by decide
  have hversion : ascii " HTTP/" = [32, 72, 84, 84, 80, 47] := by decide
  have hdot : ascii "." = [46] := by decide
  have hbreak : crlf = [13, 10] := by decide
  rw [RequestMessage.text, hlines, hblank, hversion, hdot, hbreak]
  simp only [List.append_assoc, List.cons_append, List.nil_append]
  rfl

theorem length_text {m : RequestMessage} (hm : m.WellFormed) : m.text.length =
    m.lineLength + (m.headers.flatMap headerLine).length + 2 + m.body.length := by
  rw [text_eq, decimal_digit hm.major_lt, decimal_digit hm.minor_lt]
  simp only [List.length_append, List.length_cons, List.length_nil, RequestMessage.lineLength]
  omega

section Message

variable {m : RequestMessage} {final : σ}

/-- Every header of a message can be read. -/
theorem readableHeaders (hm : m.WellFormed) (hfits : m.Fits) :
    ∀ header ∈ m.headers, ReadableHeader header := fun header hheader ↦
  { name := hm.names header hheader
    value := fun c hc ↦
      ⟨((hm.values header hheader).1 c hc).1, ((hm.values header hheader).1 c hc).2,
        hfits.values header hheader c hc⟩
    first := (hm.values header hheader).2.1
    not_encoding := hm.not_chunked header hheader
    not_upgrade := hm.not_upgrade header hheader }

/-- The length that the headers of a message say its body has. -/
def RequestMessage.knownLength (m : RequestMessage) : Option ℕ :=
  if m.body ≠ [] then some m.body.length else none

theorem lengthThrough_framed (hm : m.WellFormed) :
    LengthThrough m.headers m.body.length none m.knownLength := by
  have hframed : contentLengths m.headers = _ := hm.framed
  unfold LengthThrough RequestMessage.knownLength
  rw [hframed]
  split_ifs
  · exact Or.inr ⟨rfl, rfl, rfl⟩
  · exact Or.inl ⟨rfl, rfl⟩

/-- The text of a message leads to what its end leads to. -/
theorem leads_text [HeaderCounter] (hm : m.WellFormed) (hfits : m.Fits)
    (hcalls : runCallbacks settings m.callbacks user = some final)
    (hend : ∀ nread user, nread + 1 ≤ maxHeaderSize →
      runCallbacks settings (.headersComplete m.httpMajor m.httpMinor m.method ::
        ((if m.body ≠ [] then [.body m.body] else []) ++ [.messageComplete])) user = some final →
      AtLine settings len goal m m.knownLength
        (m.headers.any fun header ↦ beginsEncoding header.1) (13 :: 10 :: m.body) nread user) :
    Leads settings len goal m.text ⟨Parser.init .request, noMarks, user⟩ := by
  have hhead := hfits.head_le
  rw [length_text hm] at hhead
  have hcallbacks : m.callbacks = .messageBegin :: .url m.url :: (headerCallbacks m.headers ++
      .headersComplete m.httpMajor m.httpMinor m.method ::
        ((if m.body ≠ [] then [.body m.body] else []) ++ [.messageComplete])) := by
    simp only [RequestMessage.callbacks, headerCallbacks, List.append_assoc, List.cons_append,
      List.nil_append]
  rw [hcallbacks] at hcalls
  rw [text_eq]
  refine leads_requestLine hm hcalls (by omega) fun user hcalls ↦ ?_
  have hreadable := readableHeaders hm hfits
  have hline : AtLine settings len goal m none false
      (m.headers.flatMap headerLine ++ 13 :: 10 :: m.body) (m.lineLength + 1) user :=
    atLine_headers hfits.body_lt hreadable (lengthThrough_framed hm) hcalls
      ⟨⟨13, _, rfl, by decide⟩, by omega, fun user hcalls ↦ hend _ user (by omega) hcalls⟩
  obtain ⟨ch, rest, hlines, -⟩ := lines_not_blank hreadable ⟨13, 10 :: m.body, rfl, by decide⟩
  rw [hlines] at hline ⊢
  have hstart (index : ℕ) : InHead m none false .headerFieldStart (m.lineLength + 1)
      (lineParser m.method .headerFieldStart index (m.lineLength + 1) m.httpMajor
        m.httpMinor) := rfl
  exact leads_counted rfl (by simp only [lineParser]; omega) (hline _ (hstart _) 1 ch rfl)

/-- No name in the headers begins with `Transfer-Encoding`. -/
def RequestMessage.Clear (m : RequestMessage) : Prop :=
  ∀ header ∈ m.headers, beginsEncoding header.1 = false

theorem leads_finish [HeaderCounter] (hm : m.WellFormed) (hfits : m.Fits) (hclear : m.Clear)
    (hcalls : runCallbacks settings m.callbacks user = some final) :
    Leads settings len (Finishes final) m.text ⟨Parser.init .request, noMarks, user⟩ := by
  have hnone : (m.headers.any fun header ↦ beginsEncoding header.1) = false := by
    rw [List.any_eq_false]
    intro header hheader
    rw [hclear header hheader]
    exact nofun
  refine leads_text hm hfits hcalls fun nread user hcount hcalls ↦ ?_
  rw [hnone]
  exact atLine_end hm.method_ne rfl hfits.body_lt hcalls hcount

theorem leads_refusal [HeaderCounter] (hm : m.WellFormed) (hfits : m.Fits) (hclear : ¬ m.Clear)
    (hcalls : runCallbacks settings m.callbacks user = some final) :
    Leads settings len Refuses m.text ⟨Parser.init .request, noMarks, user⟩ := by
  have hsome : (m.headers.any fun header ↦ beginsEncoding header.1) = true := by
    obtain ⟨header, hheader, hbegins⟩ := not_forall₂.mp hclear
    exact List.any_eq_true.mpr ⟨header, hheader, by simpa using hbegins⟩
  refine leads_text hm hfits hcalls fun nread user hcount hcalls ↦ ?_
  rw [hsome]
  exact atLine_refused hm.method_ne hcalls hcount

end Message

end Leading

/-! ### Calls -/

section Calls

variable {σ : Type} {settings : Callback → σ → ℕ × σ} {user final : σ} {data : List UInt8}

theorem flush_noMarks {len : ℕ} {e : Exec σ} (hok : e.parser.httpErrno = .ok)
    (hmarks : e.marks = noMarks) : e.flush settings len = .ok e := by
  have hreport (element : Element) : e.report settings element [] len = .ok e := by
    unfold Exec.report
    rw [if_neg (not_not_intro hok), hmarks]
    rfl
  unfold Exec.flush elements
  rw [if_neg (by rw [hmarks]; decide)]
  simp only [List.foldlM_cons, List.foldlM_nil, hreport, ok_bind, pure_eq_ok]

/-- A loop that finishes gives a call that takes the whole buffer. -/
theorem execute_of_finishes [HeaderCounter] (hne : data ≠ [])
    (hleads : Leads settings data.length (Finishes final) data
      ⟨Parser.init .request, noMarks, user⟩) :
    ∃ p : Parser, httpParserExecute settings data (Parser.init .request) user =
      some ⟨data.length, p, final⟩ ∧ p.httpErrno = .ok := by
  obtain ⟨p, hok, hloop⟩ := hleads data.length le_rfl
  refine ⟨p, ?_, hok⟩
  have hstart : startMarks (Parser.init .request).state data = noMarks := rfl
  unfold httpParserExecute executeBody
  simp only [hstart, if_neg hne, hloop, ok_bind]
  rw [flush_noMarks hok rfl]
  rfl

/-- A loop that refuses the buffer gives a call with an error. -/
theorem execute_of_refuses [HeaderCounter] (hne : data ≠ [])
    (hleads : Leads settings data.length Refuses data ⟨Parser.init .request, noMarks, user⟩) :
    ∃ r, httpParserExecute settings data (Parser.init .request) user = some r ∧
      r.parser.httpErrno ≠ .ok := by
  obtain ⟨r, hloop, herror⟩ := hleads data.length le_rfl
  refine ⟨r, ?_, herror⟩
  have hstart : startMarks (Parser.init .request).state data = noMarks := rfl
  unfold httpParserExecute executeBody
  simp only [hstart, if_neg hne, hloop, error_bind]
  rfl

end Calls

end Cczoe.Http
