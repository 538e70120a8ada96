import Cczoe.Http.ParserRequestLine

/-!
# The vendored parser at header lines

`AtLine` is what the loop comes to at the first byte of a line behind the request line. A line that
says nothing about the framing (`atLine_ordinary`), the line of the content length (`atLine_length`)
and with them all header lines (`atLine_headers`) lead to the line behind them, with the content
length that they give. A name that begins with `Transfer-Encoding` is remembered, whatever follows
in it.
-/

set_option autoImplicit false
set_option relaxedAutoImplicit false

namespace Cczoe.Http

open Foundations

section Leading

variable {σ : Type} {settings : Callback → σ → ℕ × σ} {len : ℕ}
  {goal : ParseM σ (Exec σ) → Prop} {at_ rest : List UInt8} {ch : UInt8} {left : ℕ} {p : Parser}
  {user : σ}

/-! ### Header lines -/

/-- A parser in the headers of a message, without what harmless headers change. `length` is the
content length seen so far, and `encoding` whether a name began with `Transfer-Encoding`. -/
def headParser (m : RequestMessage) (length : Option ℕ) (encoding : Bool) (state : ParserState)
    (nread : ℕ) : Parser :=
  { type := .request
    flags := { contentlength := length.isSome }
    state := state
    usesTransferEncoding := encoding
    nread := nread
    contentLength := length.getD ullongMax
    httpMajor := m.httpMajor
    httpMinor := m.httpMinor
    method := m.method }

/-- A parser in the headers of a message. -/
def InHead (m : RequestMessage) (length : Option ℕ) (encoding : Bool) (state : ParserState)
    (nread : ℕ) (p : Parser) : Prop :=
  p.framing = headParser m length encoding state nread

section Heads

variable {m : RequestMessage} {length : Option ℕ} {encoding : Bool} {state : ParserState}
  {nread : ℕ} {p : Parser}

theorem InHead.state_eq (hp : InHead m length encoding state nread p) : p.state = state :=
  congrArg Parser.state hp

theorem InHead.nread_eq (hp : InHead m length encoding state nread p) : p.nread = nread :=
  congrArg Parser.nread hp

theorem InHead.errno_eq (hp : InHead m length encoding state nread p) : p.httpErrno = .ok :=
  congrArg Parser.httpErrno hp

theorem InHead.lenient_eq (hp : InHead m length encoding state nread p) :
    p.lenientHttpHeaders = false := congrArg Parser.lenientHttpHeaders hp

/-- Another state, count and header state. -/
theorem InHead.move (hp : InHead m length encoding state nread p) (state' : ParserState)
    (nread' : ℕ) (h : HeaderState) (index : ℕ) :
    InHead m length encoding state' nread'
      { p with state := state', nread := nread', headerState := h, index := index } := by
  change ({ p.framing with state := state', nread := nread' } : Parser) = _
  rw [hp]
  rfl

/-- The first content length. -/
theorem InHead.withLength (hp : InHead m none encoding state nread p) (n : ℕ) :
    InHead m (some n) encoding state nread
      { p with flags := { p.flags with contentlength := true }, contentLength := n } := by
  change ({ p.framing with
    flags := { p.framing.flags with contentlength := true }
    contentLength := n } : Parser) = _
  rw [hp]
  rfl

/-- The flags of a header that has nothing to do with the framing. -/
theorem InHead.headerFlags (hp : InHead m length encoding state nread p)
    (hchunked : p.headerState ≠ .transferEncodingChunked) :
    InHead m length encoding state nread { p with flags := p.headerFlags } := by
  unfold InHead at hp ⊢
  rw [← hp]
  unfold Parser.framing Parser.headerFlags
  split <;> first
    | rfl
    | contradiction

end Heads

/-- The ways through the `switch` for the first byte of a line of the headers come to a goal, with
at least three of them left. -/
def AtLine [HeaderCounter] (settings : Callback → σ → ℕ × σ) (len : ℕ)
    (goal : ParseM σ (Exec σ) → Prop)
    (m : RequestMessage) (length : Option ℕ) (encoding : Bool) (at_ : List UInt8) (nread : ℕ)
    (user : σ) : Prop :=
  ∀ p, InHead m length encoding .headerFieldStart nread p → ∀ left ch, at_.head? = some ch →
    Resumes settings len goal (left + 3) at_ ch ⟨p, noMarks, user⟩

variable {m : RequestMessage} {length : Option ℕ} {encoding : Bool} {state : ParserState}
  {nread : ℕ}

/-- Behind the line break of a value comes a line that does not begin with a blank. -/
theorem leads_lws [HeaderCounter] (hp : InHead m length encoding .headerValueLws nread p)
    (hchunked : p.headerState ≠ .transferEncodingChunked) (hblank : ¬ (ch = 32 ∨ ch = 9))
    (hcount : nread + 1 ≤ maxHeaderSize)
    (hline : AtLine settings len goal m length encoding (ch :: rest) (nread + 1) user) :
    Leads settings len goal (ch :: rest) ⟨p, noMarks, user⟩ := by
  refine leads_counted (by rw [hp.state_eq]; rfl) (by rw [hp.nread_eq]; exact hcount) ?_
  have hreact : ({ p with nread := p.nread + 1 } : Parser).react ch =
      ({ p with nread := p.nread + 1, flags := p.headerFlags } : Parser).retryIn
        .headerFieldStart := by
    simp only [Parser.react, hp.state_eq]
    exact if_neg hblank
  refine resumes_again (ch :: rest) ch
    ⟨{ p with nread := p.nread + 1, flags := p.headerFlags, state := .headerFieldStart },
      noMarks, user⟩ ?_ le_rfl ?_
  · rw [pass_eq_perform (by rw [hp.state_eq]; rfl), hreact]
    rfl
  · have hflags :=
      (hp.headerFlags hchunked).move .headerFieldStart (nread + 1) p.headerState p.index
    rw [hp.nread_eq]
    exact hline _ hflags 0 ch rfl

theorem token_ne_break {c : UInt8} (hc : isTokenChar c = true) : c ≠ 13 ∧ c ≠ 10 := by
  constructor <;> rintro rfl <;> exact absurd hc (by decide)

/-- Whether a name begins with `Transfer-Encoding`, in any case. -/
def beginsEncoding (name : List UInt8) : Bool :=
  decide (ascii "transfer-encoding" <+: name.map toLower)

theorem InHead.named (hp : InHead m length encoding state nread p) (name : List UInt8) :
    InHead m length (encoding || beginsEncoding name) state nread
      (p.named (name.map toLower)) := by
  change ({ p.framing with
    usesTransferEncoding := p.framing.usesTransferEncoding || beginsEncoding name } : Parser) = _
  rw [hp]
  rfl

/-- The first letter of a name opens it. -/
theorem react_firstLetter {c : UInt8} (hp : p.state = .headerFieldStart)
    (hc : isTokenChar c = true) :
    p.react c = ⟨({ p with state := .headerField } : Parser).named [toLower c],
      [.mark .headerField], .next⟩ := by
  have hbegins : decide (ascii "transfer-encoding" <+: [toLower c]) = false := by
    rw [decide_eq_false_iff_not]
    intro hprefix
    have hlength : 17 ≤ 1 := hprefix.length_le
    exact absurd hlength (by decide)
  simp only [Parser.react, hp]
  unfold Parser.headerFieldStart
  rw [if_neg (token_ne_break hc).1, if_neg (token_ne_break hc).2, token_of_isTokenChar hc]
  simp only [Parser.named, hbegins, Bool.or_false]
  rfl

variable (settings len rest ch) in
/-- The rest of a name and the colon behind it, in one way through the `switch`. -/
theorem pass_name [HeaderCounter] {letters : List UInt8} {c : UInt8}
    (hstate : p.state = .headerField)
    (hok : p.httpErrno = .ok) (hletters : ∀ d ∈ letters, isTokenChar d = true)
    (hcount : p.nread + letters.length ≤ maxHeaderSize)
    (hzero : (settings (.headerField (c :: letters)) user).1 = 0) :
    (⟨p.named [toLower c], markedAt .headerField (c :: (letters ++ 58 :: rest)), user⟩ :
      Exec σ).pass settings len (letters ++ 58 :: rest) ch =
    .ok (.advance rest ⟨{ p.named ((c :: letters).map toLower) with
      state := .headerValueDiscardWs, nread := p.nread + letters.length }, noMarks,
      (settings (.headerField (c :: letters)) user).2⟩) := by
  have hpass : (p.named [toLower c]).state = .headerField := hstate
  have hloop : fieldLoop (letters ++ 58 :: rest) (p.named [toLower c]) =
      some (.stopped (58 :: rest) (p.named ((c :: letters).map toLower))) :=
    fieldLoop_name rfl hletters (List.cons_ne_nil _ _)
  have hlength : (letters ++ 58 :: rest).length - (58 :: rest).length = letters.length := by
    rw [List.length_append, Nat.add_sub_cancel]
  have hnread : (p.named ((c :: letters).map toLower)).nread = p.nread := rfl
  unfold Exec.pass
  simp only [hpass, Exec.headerField, hloop, Exec.countHeaderSize, hlength, hnread,
    HeaderCounter.hold_of_le hcount, if_neg (not_lt.mpr hcount), ok_bind, List.head?_cons, if_true]
  rw [← List.cons_append, report_ok _ (by exact hok) (by exact hzero)]
  rfl

/-- A header name and the colon behind it. -/
theorem resumes_name [HeaderCounter] {name : List UInt8} {left : ℕ} {c : UInt8}
    {cbs : List Callback} {after : σ}
    (hname : IsToken name) (hp : InHead m length encoding .headerFieldStart nread p)
    (hc : name.head? = some c)
    (hcalls : runCallbacks settings (.headerField name :: cbs) user = some after)
    (hcount : nread + name.length ≤ maxHeaderSize)
    (hrest : ∀ p user, InHead m length (encoding || beginsEncoding name) .headerValueDiscardWs
        (nread + name.length) p → p.headerState = (nameScan (name.map toLower)).1 →
      runCallbacks settings cbs user = some after →
      Leads settings len goal rest ⟨p, noMarks, user⟩) :
    Resumes settings len goal (left + 1) (name ++ 58 :: rest) c ⟨p, noMarks, user⟩ := by
  obtain ⟨hzero, hcalls⟩ := runCallbacks_head hcalls
  obtain ⟨letters, rfl⟩ : ∃ letters, name = c :: letters := by
    cases name with
    | nil => exact absurd hc nofun
    | cons d letters => exact ⟨letters, by rw [Option.some.inj hc]⟩
  have hletters : ∀ d ∈ letters, isTokenChar d = true :=
    fun d hd ↦ hname.2 d (List.mem_cons_of_mem _ hd)
  rw [List.length_cons] at hcount hrest
  rw [List.cons_append]
  -- the loop over the name begins with the second byte of it, or with the colon
  obtain ⟨ch, others, hothers⟩ : ∃ ch others, letters ++ 58 :: rest = ch :: others := by
    cases letters with
    | nil => exact ⟨_, _, rfl⟩
    | cons d letters => exact ⟨_, _, rfl⟩
  let q : Parser := { p with state := .headerField }
  refine resumes_advance (letters ++ 58 :: rest)
    ⟨q.named [toLower c], markedAt .headerField (c :: (letters ++ 58 :: rest)), user⟩ ?_
    (Nat.lt_succ_self _) ?_
  · rw [pass_eq_perform (by rw [hp.state_eq]; rfl),
      react_firstLetter hp.state_eq (hname.2 c List.mem_cons_self)]
    rfl
  · have hq : q.nread = nread := hp.nread_eq
    have hpass := pass_name settings len rest ch (c := c)
      (p := { q with nread := q.nread + 1 }) rfl hp.errno_eq hletters (by simp only; omega) hzero
    rw [hothers] at hpass ⊢
    refine leads_counted (p := q.named [toLower c]) rfl (by change q.nread + 1 ≤ _; omega)
      (resumes_advance _ _ hpass ?_ (hrest _ _ ?_ rfl hcalls))
    · rw [← hothers, List.length_append, List.length_cons]
      omega
    · have hmoved := (hp.named (c :: letters)).move .headerValueDiscardWs
        (nread + (letters.length + 1)) (nameScan ((c :: letters).map toLower)).1
        (nameScan ((c :: letters).map toLower)).2
      have hcounted : q.nread + 1 + letters.length = nread + (letters.length + 1) := by omega
      rw [← hcounted] at hmoved ⊢
      exact hmoved

variable (settings len ch user) in
/-- The rest of a value and the line break behind it, in one way through the `switch`. -/
theorem pass_value [HeaderCounter] {v : UInt8} {value tail : List UInt8} {h : HeaderState}
    {after : Parser} (hstate : p.state = .headerValue)
    (hloop : valueLoop (value ++ 13 :: tail) none p.headerState p =
      some (.lineBreak (13 :: tail) h after))
    (hok : after.httpErrno = .ok) (hcount : after.nread + value.length ≤ maxHeaderSize)
    (hzero : (settings (.headerValue (v :: value)) user).1 = 0) :
    (⟨p, markedAt .headerValue (v :: (value ++ 13 :: tail)), user⟩ : Exec σ).pass settings len
      (value ++ 13 :: tail) ch =
    .ok (.advance tail ⟨{ after with
      state := .headerAlmostDone, headerState := h, nread := after.nread + value.length }, noMarks,
      (settings (.headerValue (v :: value)) user).2⟩) := by
  have hlength : (value ++ 13 :: tail).length - (13 :: tail).length = value.length := by
    rw [List.length_append, Nat.add_sub_cancel]
  unfold Exec.pass
  simp only [hstate, Exec.headerValue, hloop, List.head?_cons, if_true]
  rw [← List.cons_append, report_ok _ (by exact hok) (by exact hzero)]
  simp only [ok_bind, Exec.countHeaderSize, hlength, HeaderCounter.hold_of_le hcount,
    if_neg (not_lt.mpr hcount)]
  rfl

/-- A line behind a header line: its first byte, and what the loop comes to from there. -/
structure LineAhead [HeaderCounter] (settings : Callback → σ → ℕ × σ) (len : ℕ)
    (goal : ParseM σ (Exec σ) → Prop) (m : RequestMessage) (length : Option ℕ) (encoding : Bool)
    (nread : ℕ) (cbs : List Callback) (final : σ) (at_ : List UInt8) : Prop where
  not_blank : ∃ ch rest, at_ = ch :: rest ∧ ¬ (ch = 32 ∨ ch = 9)
  count_le : nread ≤ maxHeaderSize
  atLine : ∀ user, runCallbacks settings cbs user = some final →
    AtLine settings len goal m length encoding at_ nread user

variable (m length encoding nread) in
/-- The rest of a value, with the mark of it set, up to the next line. -/
theorem leads_value [HeaderCounter] {v : UInt8} {value at_ : List UInt8} {h : HeaderState}
    {after : Parser} {cbs : List Callback} {final : σ} (hstate : p.state = .headerValue)
    (hloop : valueLoop (value ++ 13 :: 10 :: at_) none p.headerState
      { p with nread := p.nread + 1 } = some (.lineBreak (13 :: 10 :: at_) h after))
    (hafter : InHead m length encoding .headerValue (nread + 1) after) (hnread : p.nread = nread)
    (hchunked : h ≠ .transferEncodingChunked)
    (hcalls : runCallbacks settings (.headerValue (v :: value) :: cbs) user = some final)
    (hline : LineAhead settings len goal m length encoding (nread + value.length + 3) cbs final
      at_) :
    Leads settings len goal (value ++ 13 :: 10 :: at_)
      ⟨p, markedAt .headerValue (v :: (value ++ 13 :: 10 :: at_)), user⟩ := by
  obtain ⟨hzero, hcalls⟩ := runCallbacks_head hcalls
  have hcount := hline.count_le
  obtain ⟨c, others, hothers⟩ : ∃ c others, value ++ 13 :: 10 :: at_ = c :: others := by
    cases value with
    | nil => exact ⟨_, _, rfl⟩
    | cons d value => exact ⟨_, _, rfl⟩
  have hpass := pass_value settings len c user (v := v)
    (p := { p with nread := p.nread + 1 }) hstate hloop hafter.errno_eq
    (by rw [hafter.nread_eq]; omega) hzero
  rw [hothers] at hpass ⊢
  refine leads_counted (by rw [hstate]; rfl) (by omega)
    (resumes_advance _ _ hpass ?_ ?_)
  · rw [← hothers]
    simp only [List.length_append, List.length_cons]
    omega
  · have hmoved := hafter.move .headerValueLws (nread + value.length + 2) h after.index
    refine leads_quiet _ rfl rfl (by simp only [hafter.nread_eq]; omega) rfl ?_
    obtain ⟨ch, rest, rfl, hblank⟩ := hline.not_blank
    rw [hafter.nread_eq]
    rw [show nread + 1 + value.length + 1 = nread + value.length + 2 by omega]
    exact leads_lws hmoved hchunked hblank hcount (hline.atLine _ hcalls)

/-- A value that is empty, up to the next line. -/
theorem leads_emptyValue [HeaderCounter] {at_ : List UInt8} {cbs : List Callback} {final : σ}
    (hp : InHead m length encoding .headerValueDiscardWs nread p)
    (hlength : p.headerState ≠ .contentLength) (hchunked : p.headerState ≠ .transferEncodingChunked)
    (hcalls : runCallbacks settings (.headerValue [] :: cbs) user = some final)
    (hline : LineAhead settings len goal m length encoding (nread + 3) cbs final at_) :
    Leads settings len goal (13 :: 10 :: at_) ⟨p, noMarks, user⟩ := by
  obtain ⟨hzero, hcalls⟩ := runCallbacks_head hcalls
  have hcount := hline.count_le
  obtain ⟨ch, rest, rfl, hblank⟩ := hline.not_blank
  refine leads_quiet { p with nread := nread + 1, state := .headerValueDiscardWsAlmostDone }
    (by rw [hp.state_eq]; rfl) (by rw [hp.state_eq]; rfl) (by rw [hp.nread_eq]; omega) ?_ ?_
  · simp only [Parser.react, hp.state_eq, hp.nread_eq]
    rfl
  refine leads_quiet { p with nread := nread + 2, state := .headerValueDiscardLws }
    rfl rfl (by simp only; omega) rfl ?_
  -- the first byte of the next line reports the empty value
  let q : Parser := { p with nread := nread + 2 + 1, state := .headerValueDiscardLws }
  have hreact : q.react ch = ⟨{ q with flags := p.headerFlags, state := .headerFieldStart },
      [.mark .headerValue, .data .headerValue false], .reexecute⟩ := by
    change q.headerValueDiscardLws ch = _
    unfold Parser.headerValueDiscardLws
    rw [if_neg hblank, if_neg (by exact hlength)]
    rfl
  refine leads_counted rfl (by simp only; omega) (resumes_again (ch :: rest) ch
    ⟨{ q with flags := p.headerFlags, state := .headerFieldStart }, noMarks,
      (settings (.headerValue []) user).2⟩ ?_ le_rfl ?_)
  · rw [pass_eq_perform rfl]
    simp only [Exec.perform]
    rw [show ({ p with nread := nread + 2 + 1, state := .headerValueDiscardLws } : Parser).react ch
      = _ from hreact]
    simp only [List.foldlM_cons, List.foldlM_nil, Exec.act, mark_noMarks, ok_bind]
    rw [report_empty (by exact hp.errno_eq) (by exact hzero)]
    rfl
  · have hmoved :=
      (hp.headerFlags hchunked).move .headerFieldStart (nread + 3) p.headerState p.index
    exact hline.atLine _ hcalls _ hmoved 0 ch rfl

/-- The header state behind a name that the parser does not act on. -/
def HeaderState.ordinary (h : HeaderState) : Bool :=
  h.inName && h != .contentLength && h != .transferEncoding && h != .upgrade

/-- The first byte of a value opens it. The value says nothing about the framing behind a name that
the parser does not act on, or behind `Connection`. -/
theorem headerValueStart_ordinary {v : UInt8} (hordinary : p.headerState.ordinary = true) :
    ∃ h, h.harmless = true ∧ p.headerValueStart v =
      ⟨{ p with state := .headerValue, index := 0, headerState := h }, [.mark .headerValue],
        .next⟩ := by
  unfold Parser.headerValueStart
  simp only
  split <;> rename_i hstate <;> try rw [hstate] at hordinary
  · exact absurd hordinary (by decide)
  · exact absurd hordinary (by decide)
  · exact absurd hordinary (by decide)
  · exact ⟨_, by split_ifs <;> rfl, rfl⟩
  · exact absurd hordinary (by decide)
  · exact absurd hordinary (by decide)
  · exact absurd hordinary (by decide)
  · exact ⟨.general, rfl, rfl⟩

/-- The first digit of a content length that has not been given before. -/
theorem headerValueStart_length {v : UInt8} (hstate : p.headerState = .contentLength)
    (hflag : p.flags.contentlength = false) (hv : isNum v = true) :
    p.headerValueStart v = ⟨{ p with
      state := .headerValue
      index := 0
      flags := { p.flags with contentlength := true }
      contentLength := v.toNat - 48
      headerState := .contentLengthNum }, [.mark .headerValue], .next⟩ := by
  unfold Parser.headerValueStart
  simp only [hstate, hv, hflag]
  rfl

/-- A blank and the first byte of a value behind a colon. -/
theorem leads_firstByte [HeaderCounter] {v : UInt8} {q : Parser}
    (hp : InHead m length encoding .headerValueDiscardWs nread p)
    (hv : v ≠ 13 ∧ v ≠ 10 ∧ isBlank v = false) (hcount : nread + 2 ≤ maxHeaderSize)
    (hstart : ({ p with nread := nread + 2 } : Parser).headerValueStart v =
      ⟨q, [.mark .headerValue], .next⟩)
    (hrest : Leads settings len goal rest ⟨q, markedAt .headerValue (v :: rest), user⟩) :
    Leads settings len goal (32 :: v :: rest) ⟨p, noMarks, user⟩ := by
  have hblank : ¬ (v = 32 ∨ v = 9) := by
    rintro (rfl | rfl) <;> exact absurd hv.2.2 (by decide)
  refine leads_quiet { p with nread := nread + 1 } (by rw [hp.state_eq]; rfl)
    (by rw [hp.state_eq]; rfl) (by rw [hp.nread_eq]; omega) ?_ ?_
  · simp only [Parser.react, hp.state_eq, hp.nread_eq]
    rfl
  refine leads_counted (by simp only [hp.state_eq]; rfl) hcount
    (resumes_advance rest ⟨q, markedAt .headerValue (v :: rest), user⟩ ?_
      (Nat.lt_succ_self _) hrest)
  have hreact : ({ p with nread := nread + 1 + 1 } : Parser).react v =
      ⟨q, [.mark .headerValue], .next⟩ := by
    rw [← hstart]
    simp only [Parser.react, hp.state_eq]
    unfold Parser.headerValueDiscardWs
    rw [if_neg hblank, if_neg hv.1, if_neg hv.2.1]
  rw [pass_eq_perform (by simp only [hp.state_eq]; rfl)]
  simp only [Exec.perform]
  rw [hreact]
  rfl

/-- A blank and a value that says nothing about the framing, up to the next line. -/
theorem leads_ordinaryValue [HeaderCounter] {value at_ : List UInt8} {cbs : List Callback}
    {final : σ} (hp : InHead m length encoding .headerValueDiscardWs nread p)
    (hordinary : p.headerState.ordinary = true)
    (hvalue : ∀ c ∈ value, IsValueByte c) (hfirst : ∀ c ∈ value.head?, isBlank c = false)
    (hcalls : runCallbacks settings (.headerValue value :: cbs) user = some final)
    (hline : LineAhead settings len goal m length encoding (nread + value.length + 4) cbs final
      at_) :
    Leads settings len goal (32 :: (value ++ 13 :: 10 :: at_)) ⟨p, noMarks, user⟩ := by
  have hcount := hline.count_le
  cases value with
  | nil =>
    have hmoved := hp.move .headerValueDiscardWs (nread + 1) p.headerState p.index
    refine leads_quiet _ (by rw [hp.state_eq]; rfl) (by rw [hp.state_eq]; rfl)
      (by rw [hp.nread_eq]; omega) ?_ (leads_emptyValue hmoved ?_ ?_ hcalls hline)
    · simp only [Parser.react, hp.state_eq, hp.nread_eq]
      rfl
    · intro hlength
      rw [show p.headerState = .contentLength from hlength] at hordinary
      exact absurd hordinary (by decide)
    · intro hchunked
      rw [show p.headerState = .transferEncodingChunked from hchunked] at hordinary
      exact absurd hordinary (by decide)
  | cons v value =>
    obtain ⟨hcr, hlf, hchar⟩ := hvalue v List.mem_cons_self
    obtain ⟨h, hharmless, hstart⟩ :=
      headerValueStart_ordinary (p := { p with nread := nread + 2 }) (v := v) hordinary
    rw [List.length_cons] at hline hcount
    refine leads_firstByte hp ⟨hcr, hlf, hfirst v rfl⟩ (by omega) hstart ?_
    obtain ⟨h', after, hloop, hharmless', hframing⟩ :=
      valueLoop_harmless (10 :: at_) (fun c hc ↦ hvalue c (List.mem_cons_of_mem _ hc))
        (by omega) (h := h) (p := { p with
          state := .headerValue, index := 0, headerState := h, nread := nread + 2 + 1 }) hharmless
    have hmoved := hp.move .headerValue (nread + 2 + 1) h 0
    refine leads_value m length encoding (nread + 2) rfl hloop
      (hframing.trans hmoved) rfl ?_ hcalls ?_
    · rintro rfl
      exact absurd hharmless' (by decide)
    · rwa [show nread + 2 + value.length + 3 = nread + (value.length + 1) + 4 by omega]

/-- A blank and a content length, up to the next line. -/
theorem leads_lengthValue [HeaderCounter] {bodyLength : ℕ} {at_ : List UInt8} {cbs : List Callback}
    {final : σ} (hp : InHead m none encoding .headerValueDiscardWs nread p)
    (hstate : p.headerState = .contentLength) (hlength : bodyLength < 2 ^ 63)
    (hcalls : runCallbacks settings (.headerValue (decimal bodyLength) :: cbs) user = some final)
    (hline : LineAhead settings len goal m (some bodyLength) encoding
      (nread + (decimal bodyLength).length + 4) cbs final at_) :
    Leads settings len goal (32 :: (decimal bodyLength ++ 13 :: 10 :: at_))
      ⟨p, noMarks, user⟩ := by
  have hcount := hline.count_le
  have hdigits := fun c (hc : c ∈ decimal bodyLength) ↦ digit_of_mem_decimal hc
  have hspelled := spelled_decimal bodyLength
  have hne : decimal bodyLength ≠ [] := by
    rw [decimal, ne_eq, List.map_eq_nil_iff]
    exact Nat.toDigits_ne_nil
  generalize decimal bodyLength = digits at *
  cases digits with
  | nil => exact absurd rfl hne
  | cons v digits =>
    obtain ⟨hlow, hhigh⟩ := hdigits v List.mem_cons_self
    have hother (other : UInt8) (hless : ¬ 48 ≤ other) : v ≠ other := by
      rintro rfl
      exact hless hlow
    have hnum : isNum v = true := by simp [isNum, hlow, hhigh]
    have hblank : isBlank v = false := by
      simp [isBlank, hother 32 (by decide), hother 9 (by decide)]
    rw [List.length_cons] at hline hcount
    have hflag : p.flags.contentlength = false := congrArg (·.flags.contentlength) hp
    have hstart := headerValueStart_length (p := { p with nread := nread + 2 }) hstate hflag hnum
    refine leads_firstByte hp ⟨hother 13 (by decide), hother 10 (by decide), hblank⟩ (by omega)
      hstart ?_
    have hvalue : spelledFrom (v.toNat - 48) digits = bodyLength := by
      rw [← hspelled, spelled, List.foldl_cons, Nat.mul_zero, Nat.zero_add]
      rfl
    have hloop := valueLoop_decimal (10 :: at_)
      (fun c hc ↦ hdigits c (List.mem_cons_of_mem _ hc)) (p := { p with
        state := .headerValue, index := 0, nread := nread + 2 + 1,
        flags := { p.flags with contentlength := true }, contentLength := v.toNat - 48,
        headerState := .contentLengthNum }) (by rw [hvalue]; exact hlength)
    refine leads_value m (some bodyLength) encoding (nread + 2) rfl hloop ?_ rfl
      (by decide) hcalls ?_
    · rw [hvalue]
      exact (hp.move .headerValue (nread + 2 + 1) .contentLengthNum 0).withLength bodyLength
    · rwa [show nread + 2 + digits.length + 3 = nread + (digits.length + 1) + 4 by omega]

/-! ### The headers -/

/-- The letters of a name in lower case are those of another name exactly when the names are the
same. -/
theorem sameName_iff_lower {name word : List UInt8} (hname : ∀ c ∈ name, c ≠ 0)
    (hword : ∀ c ∈ word, c ≠ 0) : SameName name word ↔ name.map toLower = word.map toLower := by
  have hfolded {letters : List UInt8} (hletters : ∀ c ∈ letters, c ≠ 0) :
      foldedName letters = (letters.map toLower).map UInt8.toNat := by
    rw [foldedName, List.takeWhile_eq_self_iff.mpr (by simpa using hletters), List.map_map]
    rfl
  unfold SameName
  rw [hfolded hname, hfolded hword]
  exact (List.map_injective_iff.mpr fun _ _ ↦ UInt8.toNat_inj.mp).eq_iff

theorem token_ne_zero {c : UInt8} (hc : isTokenChar c = true) : c ≠ 0 := by
  rintro rfl
  exact absurd hc (by decide)

/-- What a header name leads to. -/
theorem nameScan_sameName {name : List UInt8} (hname : IsToken name) :
    ((nameScan (name.map toLower)).1 = .contentLength ↔
      SameName name (ascii "Content-Length")) ∧
    (¬ SameName name (ascii "Transfer-Encoding") → ¬ SameName name (ascii "Upgrade") →
      ¬ SameName name (ascii "Content-Length") →
      (nameScan (name.map toLower)).1.ordinary = true) := by
  have hzero := fun c hc ↦ token_ne_zero (hname.2 c hc)
  have hlength : SameName name (ascii "Content-Length") ↔
      name.map toLower = ascii "content-length" :=
    sameName_iff_lower hzero (forall_mem_of_all (by decide))
  have hencoding : SameName name (ascii "Transfer-Encoding") ↔
      name.map toLower = ascii "transfer-encoding" :=
    sameName_iff_lower hzero (forall_mem_of_all (by decide))
  have hupgrade : SameName name (ascii "Upgrade") ↔ name.map toLower = ascii "upgrade" :=
    sameName_iff_lower hzero (forall_mem_of_all (by decide))
  refine ⟨by rw [hlength, nameScan_contentLength_iff], fun hnoEncoding hnoUpgrade hnoLength ↦ ?_⟩
  rw [hencoding] at hnoEncoding
  rw [hupgrade] at hnoUpgrade
  rw [hlength] at hnoLength
  have hstateLength := mt nameScan_contentLength_iff.mp hnoLength
  have hstateEncoding := mt nameScan_transferEncoding_iff.mp hnoEncoding
  have hstateUpgrade := nameScan_upgrade_ne hnoUpgrade
  simp [HeaderState.ordinary, (spells_nameScan (name.map toLower)).2, hstateLength,
    hstateEncoding, hstateUpgrade]

/-- A header line of a message that the parser can read. -/
structure ReadableHeader (header : List UInt8 × List UInt8) : Prop where
  name : IsToken header.1
  value : ∀ c ∈ header.2, IsValueByte c
  first : ∀ c ∈ header.2.head?, isBlank c = false
  not_encoding : ¬ SameName header.1 (ascii "Transfer-Encoding")
  not_upgrade : ¬ SameName header.1 (ascii "Upgrade")

/-- The text of a header line. -/
def headerLine (header : List UInt8 × List UInt8) : List UInt8 :=
  header.1 ++ 58 :: 32 :: (header.2 ++ [13, 10])

theorem length_headerLine (header : List UInt8 × List UInt8) :
    (headerLine header).length = header.1.length + header.2.length + 4 := by
  simp only [headerLine, List.length_append, List.length_cons, List.length_nil]
  omega

/-- The callbacks for header lines. -/
def headerCallbacks (headers : List (List UInt8 × List UInt8)) : List Callback :=
  headers.flatMap fun header ↦ [.headerField header.1, .headerValue header.2]

/-- A header line that says nothing about the framing, and the lines behind it. -/
theorem atLine_ordinary [HeaderCounter] {header : List UInt8 × List UInt8} {at_ : List UInt8}
    {cbs : List Callback} {final : σ} (hheader : ReadableHeader header)
    (hlength : ¬ SameName header.1 (ascii "Content-Length"))
    (hcalls : runCallbacks settings (.headerField header.1 :: .headerValue header.2 :: cbs) user =
      some final)
    (hline : LineAhead settings len goal m length (encoding || beginsEncoding header.1)
      (nread + (headerLine header).length) cbs final at_) :
    AtLine settings len goal m length encoding (headerLine header ++ at_) nread user := by
  intro p hp left ch hch
  rw [length_headerLine] at hline
  have hcount := hline.count_le
  have htext : headerLine header ++ at_ =
      header.1 ++ 58 :: (32 :: (header.2 ++ 13 :: 10 :: at_)) := by
    simp [headerLine]
  rw [htext] at hch ⊢
  have hhead : header.1.head? = some ch := by
    cases hname : header.1 with
    | nil => exact absurd hname hheader.name.1
    | cons c letters =>
      rw [hname] at hch
      exact hch
  refine resumes_name hheader.name hp hhead hcalls (by omega) fun p user hp hstate hcalls ↦ ?_
  refine leads_ordinaryValue hp ?_ hheader.value hheader.first hcalls ?_
  · rw [hstate]
    exact (nameScan_sameName hheader.name).2 hheader.not_encoding hheader.not_upgrade hlength
  · rwa [show nread + header.1.length + header.2.length + 4 =
      nread + (header.1.length + header.2.length + 4) by omega]

/-- The line of a content length, and the lines behind it. -/
theorem atLine_length [HeaderCounter] {header : List UInt8 × List UInt8} {bodyLength : ℕ}
    {at_ : List UInt8} {cbs : List Callback} {final : σ} (hheader : ReadableHeader header)
    (hname : SameName header.1 (ascii "Content-Length"))
    (hvalue : header.2 = decimal bodyLength) (hbody : bodyLength < 2 ^ 63)
    (hcalls : runCallbacks settings (.headerField header.1 :: .headerValue header.2 :: cbs) user =
      some final)
    (hline : LineAhead settings len goal m (some bodyLength) (encoding || beginsEncoding header.1)
      (nread + (headerLine header).length) cbs final at_) :
    AtLine settings len goal m none encoding (headerLine header ++ at_) nread user := by
  intro p hp left ch hch
  rw [length_headerLine] at hline
  have hcount := hline.count_le
  have htext : headerLine header ++ at_ =
      header.1 ++ 58 :: (32 :: (header.2 ++ 13 :: 10 :: at_)) := by
    simp [headerLine]
  rw [htext] at hch ⊢
  have hhead : header.1.head? = some ch := by
    cases hletters : header.1 with
    | nil => exact absurd hletters hheader.name.1
    | cons c letters =>
      rw [hletters] at hch
      exact hch
  refine resumes_name hheader.name hp hhead hcalls (by omega) fun p user hp hstate hcalls ↦ ?_
  rw [hvalue] at hcalls hline ⊢
  refine leads_lengthValue hp ?_ hbody hcalls ?_
  · rw [hstate]
    exact (nameScan_sameName hheader.name).1.mpr hname
  · rwa [show nread + header.1.length + (decimal bodyLength).length + 4 =
      nread + (header.1.length + (decimal bodyLength).length + 4) by omega]

/-- The values of the content lengths among headers. -/
def contentLengths (headers : List (List UInt8 × List UInt8)) : List (List UInt8) :=
  (headers.filter fun header ↦
    foldedName header.1 = foldedName (ascii "Content-Length")).map Prod.snd

/-- What the content lengths among headers make of the one seen so far. -/
def LengthThrough (headers : List (List UInt8 × List UInt8)) (bodyLength : ℕ)
    (before after : Option ℕ) : Prop :=
  (contentLengths headers = [] ∧ after = before) ∨
    (contentLengths headers = [decimal bodyLength] ∧ before = none ∧ after = some bodyLength)

/-- Lines of headers do not begin with a blank. -/
theorem lines_not_blank {headers : List (List UInt8 × List UInt8)} {at_ : List UInt8}
    (hheaders : ∀ header ∈ headers, ReadableHeader header)
    (hat : ∃ ch rest, at_ = ch :: rest ∧ ¬ (ch = 32 ∨ ch = 9)) :
    ∃ ch rest, headers.flatMap headerLine ++ at_ = ch :: rest ∧ ¬ (ch = 32 ∨ ch = 9) := by
  cases headers with
  | nil => exact hat
  | cons header headers =>
    have hname := (hheaders header List.mem_cons_self).name
    cases hletters : header.1 with
    | nil => exact absurd hletters hname.1
    | cons c letters =>
      refine ⟨c, _, by simp only [List.flatMap_cons, headerLine, hletters]; rfl, ?_⟩
      have hc := hname.2 c (by rw [hletters]; exact List.mem_cons_self)
      rintro (rfl | rfl) <;> exact absurd hc (by decide)

/-- All header lines of a message. -/
theorem atLine_headers [HeaderCounter] {bodyLength : ℕ} (hbody : bodyLength < 2 ^ 63)
    {after : Option ℕ} {at_ : List UInt8} {cbs : List Callback} {final : σ}
    {headers : List (List UInt8 × List UInt8)}
    (hheaders : ∀ header ∈ headers, ReadableHeader header) :
    ∀ {length : Option ℕ} {encoding : Bool} {nread : ℕ} {user : σ},
    LengthThrough headers bodyLength length after →
    runCallbacks settings (headerCallbacks headers ++ cbs) user = some final →
    LineAhead settings len goal m after
      (encoding || headers.any fun header ↦ beginsEncoding header.1)
      (nread + (headers.flatMap headerLine).length) cbs final at_ →
    AtLine settings len goal m length encoding (headers.flatMap headerLine ++ at_) nread user := by
  induction headers with
  | nil =>
    intro length encoding nread user hthrough hcalls hline
    obtain ⟨-, rfl⟩ | ⟨habsurd, -⟩ := hthrough
    · rw [List.any_nil, Bool.or_false] at hline
      exact hline.atLine user hcalls
    · exact absurd habsurd nofun
  | cons header headers ih =>
    intro length encoding nread user hthrough hcalls hline
    have hheader := hheaders header List.mem_cons_self
    have hothers : ∀ other ∈ headers, ReadableHeader other :=
      fun other hother ↦ hheaders other (List.mem_cons_of_mem _ hother)
    have hcount := hline.count_le
    rw [List.flatMap_cons, List.length_append] at hcount
    rw [List.flatMap_cons, List.append_assoc]
    rw [List.any_cons, ← Bool.or_assoc, List.flatMap_cons, List.length_append,
      ← Nat.add_assoc] at hline
    -- what comes behind this line, once the content length behind it is known
    have hahead {next : Option ℕ} (hnext : LengthThrough headers bodyLength next after) :
        LineAhead settings len goal m next (encoding || beginsEncoding header.1)
          (nread + (headerLine header).length) (headerCallbacks headers ++ cbs) final
          (headers.flatMap headerLine ++ at_) :=
      ⟨lines_not_blank hothers hline.not_blank, by omega,
        fun user hcalls ↦ ih hothers hnext hcalls hline⟩
    by_cases hname : SameName header.1 (ascii "Content-Length")
    · have hlengths : contentLengths (header :: headers) = header.2 :: contentLengths headers := by
        unfold contentLengths
        rw [List.filter_cons_of_pos (by simpa [SameName] using hname), List.map_cons]
      obtain ⟨hnil, -⟩ | ⟨hone, rfl, rfl⟩ := hthrough
      · rw [hlengths] at hnil
        exact absurd hnil (List.cons_ne_nil _ _)
      · rw [hlengths] at hone
        obtain ⟨hvalue, hrest⟩ := List.cons_eq_cons.mp hone
        exact atLine_length hheader hname hvalue hbody hcalls (hahead (Or.inl ⟨hrest, rfl⟩))
    · have hlengths : contentLengths (header :: headers) = contentLengths headers := by
        unfold contentLengths
        rw [List.filter_cons_of_neg (by simpa [SameName] using hname)]
      refine atLine_ordinary hheader hname hcalls (hahead ?_)
      rwa [LengthThrough, hlengths] at hthrough

end Leading

end Cczoe.Http
