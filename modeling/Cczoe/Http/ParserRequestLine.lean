import Cczoe.Http.ParserHeaders
import Cczoe.Http.ParserSafety

/-!
# The vendored parser at a request line

`Leads` is what the loop of `http_parser_execute` comes to from a pointer, and `Resumes` what the
ways through the `switch` come to. The rules for them follow the text: a byte that is only looked at
(`leads_quiet`), a byte that is seen again (`resumes_again`), and the end of the buffer
(`leads_nil`). `leads_requestLine` is the request line of a well-formed message, whose callbacks
return zero.
-/

set_option autoImplicit false
set_option relaxedAutoImplicit false

namespace Cczoe.Http

open Foundations

/-! ### What the loop comes to -/

section Leading

variable {σ : Type} (settings : Callback → σ → ℕ × σ) (len : ℕ)
  (goal : ParseM σ (Exec σ) → Prop)

/-- The loop from a pointer comes to a goal. -/
def Leads [HeaderCounter] (at_ : List UInt8) (e : Exec σ) : Prop :=
  ∀ fuel, at_.length ≤ fuel → goal (loop settings len fuel at_ e)

/-- The ways through the `switch` for a byte, and the loop behind them, come to a goal. -/
def Resumes [HeaderCounter] (left : ℕ) (at_ : List UInt8) (ch : UInt8) (e : Exec σ) : Prop :=
  ∀ fuel, at_.length ≤ fuel + 1 →
    goal (passes settings len left e at_ ch >>= fun after ↦ loop settings len fuel after.1 after.2)

variable {settings len goal} {at_ rest : List UInt8} {ch : UInt8} {e e' : Exec σ} {left : ℕ}
  {p p' : Parser} {marks : Element → Option (List UInt8)} {user : σ}

theorem leads_nil [HeaderCounter] (hgoal : goal (.ok e)) : Leads settings len goal [] e := by
  intro fuel _
  cases fuel <;> exact hgoal

/-- A head of a length that is allowed. -/
theorem countHeaderSize_ok [HeaderCounter] {count nparsed : ℕ}
    (hle : e.parser.nread + count ≤ maxHeaderSize) :
    e.countHeaderSize count nparsed =
      .ok { e with parser := { e.parser with nread := e.parser.nread + count } } := by
  unfold Exec.countHeaderSize
  simp only [HeaderCounter.hold_of_le hle, if_neg (not_lt.mpr hle)]

/-- A byte of the head is counted. -/
theorem leads_counted [HeaderCounter] (hparsing : p.state.parsingHeader = true)
    (hcount : p.nread + 1 ≤ maxHeaderSize)
    (hrest : Resumes settings len goal 4 (ch :: rest) ch
      ⟨{ p with nread := p.nread + 1 }, marks, user⟩) :
    Leads settings len goal (ch :: rest) ⟨p, marks, user⟩ := by
  intro fuel hfuel
  obtain ⟨fuel, rfl⟩ := Nat.exists_eq_succ_of_ne_zero (Nat.ne_zero_of_lt hfuel)
  simp only [loop, Exec.countByte, hparsing, if_true,
    countHeaderSize_ok (e := ⟨p, marks, user⟩) hcount, ok_bind]
  exact hrest fuel hfuel

/-- A byte of the body is not counted. -/
theorem leads_uncounted [HeaderCounter] (hparsing : p.state.parsingHeader = false)
    (hrest : Resumes settings len goal 4 (ch :: rest) ch ⟨p, marks, user⟩) :
    Leads settings len goal (ch :: rest) ⟨p, marks, user⟩ := by
  intro fuel hfuel
  obtain ⟨fuel, rfl⟩ := Nat.exists_eq_succ_of_ne_zero (Nat.ne_zero_of_lt hfuel)
  simp only [loop, Exec.countByte, hparsing, if_neg Bool.false_ne_true, ok_bind]
  exact hrest fuel hfuel

theorem resumes_advance [HeaderCounter] (rest : List UInt8) (e' : Exec σ)
    (hpass : e.pass settings len at_ ch = .ok (.advance rest e'))
    (hlt : rest.length < at_.length) (hrest : Leads settings len goal rest e') :
    Resumes settings len goal (left + 1) at_ ch e := by
  intro fuel hfuel
  simp only [passes, hpass, ok_bind, pure_eq_ok]
  exact hrest fuel (by omega)

theorem resumes_again [HeaderCounter] (at_' : List UInt8) (ch' : UInt8) (e' : Exec σ)
    (hpass : e.pass settings len at_ ch = .ok (.reexecute at_' ch' e'))
    (hle : at_'.length ≤ at_.length) (hrest : Resumes settings len goal left at_' ch' e') :
    Resumes settings len goal (left + 1) at_ ch e := by
  intro fuel hfuel
  simp only [passes, hpass, ok_bind]
  exact hrest fuel (hle.trans hfuel)

theorem resumes_stop [HeaderCounter] {stop : Stop (Returned σ)}
    (hpass : e.pass settings len at_ ch = .error stop)
    (hgoal : goal (.error stop)) : Resumes settings len goal (left + 1) at_ ch e := by
  intro fuel _
  simp only [passes, hpass, error_bind]
  exact hgoal

theorem pass_eq_perform [HeaderCounter] (hloop : e.parser.state.hasLoop = false) :
    e.pass settings len at_ ch = e.perform settings len at_ ch (e.parser.react ch) := by
  unfold Exec.pass
  split <;> simp_all [ParserState.hasLoop]

/-- A state that only looks at a byte of the head. -/
theorem leads_quiet [HeaderCounter] (p' : Parser) (hparsing : p.state.parsingHeader = true)
    (hloop : p.state.hasLoop = false)
    (hcount : p.nread + 1 ≤ maxHeaderSize)
    (hreact : ({ p with nread := p.nread + 1 } : Parser).react ch = ⟨p', [], .next⟩)
    (hrest : Leads settings len goal rest ⟨p', marks, user⟩) :
    Leads settings len goal (ch :: rest) ⟨p, marks, user⟩ := by
  refine leads_counted hparsing hcount
    (resumes_advance rest ⟨p', marks, user⟩ ?_ (Nat.lt_succ_self _) hrest)
  rw [pass_eq_perform hloop]
  simp only [Exec.perform, hreact]
  rfl

/-! Callbacks that return zero. -/

/-- No mark is set. -/
def noMarks (_ : Element) : Option (List UInt8) := none

/-- Only one mark is set. -/
def markedAt (element : Element) (mark : List UInt8) : Element → Option (List UInt8) :=
  Function.update noMarks element (some mark)

theorem mark_noMarks (element : Element) :
    (⟨p, noMarks, user⟩ : Exec σ).mark element at_ = ⟨p, markedAt element at_, user⟩ := rfl

theorem call_ok {callback : Callback} {errno : HttpErrno} {nparsed : ℕ}
    (hok : e.parser.httpErrno = .ok) (hzero : (settings callback e.user).1 = 0) :
    e.call settings callback errno nparsed =
      .ok { e with user := (settings callback e.user).2 } := by
  unfold Exec.call
  simp only [hok, hzero, ne_eq, not_true_eq_false, if_false]

theorem report_ok {element : Element} (content : List UInt8) {stop : List UInt8} {nparsed : ℕ}
    (hok : p.httpErrno = .ok) (hzero : (settings (element.callback p content) user).1 = 0) :
    (⟨p, markedAt element (content ++ stop), user⟩ : Exec σ).report settings element stop nparsed =
      .ok ⟨p, noMarks, (settings (element.callback p content) user).2⟩ := by
  have hmarked : marked (content ++ stop) stop = content := by
    rw [marked, List.length_append, Nat.add_sub_cancel, List.take_left]
  have hclosed : Function.update (markedAt element (content ++ stop)) element none = noMarks := by
    rw [markedAt, Function.update_idem]
    exact Function.update_eq_self element noMarks
  unfold Exec.report
  simp only [hok, ne_eq, not_true_eq_false, if_false, markedAt, Function.update_self]
  rw [hmarked, call_ok hok hzero]
  simp only [ok_bind, pure_eq_ok]
  rw [← markedAt, hclosed]

theorem report_empty {element : Element} {stop : List UInt8} {nparsed : ℕ}
    (hok : p.httpErrno = .ok) (hzero : (settings (element.callback p []) user).1 = 0) :
    (⟨p, markedAt element stop, user⟩ : Exec σ).report settings element stop nparsed =
      .ok ⟨p, noMarks, (settings (element.callback p []) user).2⟩ :=
  report_ok [] hok hzero

theorem runCallbacks_head {callback : Callback} {others : List Callback} {after : σ}
    (hcalls : runCallbacks settings (callback :: others) user = some after) :
    (settings callback user).1 = 0 ∧
      runCallbacks settings others (settings callback user).2 = some after := by
  unfold runCallbacks at hcalls
  simp only at hcalls
  split_ifs at hcalls with hzero
  exact ⟨hzero, hcalls⟩

/-! ### The request line -/

/-- A parser in a request line. -/
def lineParser (method : HttpMethod) (state : ParserState) (index nread major minor : ℕ) : Parser :=
  { type := .request
    state := state
    index := index
    nread := nread
    contentLength := ullongMax
    httpMajor := major
    httpMinor := minor
    method := method }

/-- What a letter of a method makes of the method looked for and the index. -/
def letterStep (now : HttpMethod × ℕ) (ch : UInt8) : Option (HttpMethod × ℕ) :=
  let r := (lineParser now.1 .reqMethod now.2 0 0 0).reqMethod ch
  if r.flow = .next ∧ r.parser.state = .reqMethod then some (r.parser.method, r.parser.index)
  else none

/-- The letters of every method lead to it. -/
theorem letters_lead (method : HttpMethod) :
    ∃ first letters, methodString method = first :: letters ∧ isAlpha first = true ∧
      ∃ start, Parser.firstMethod first = some start ∧
        letters.foldlM letterStep (start, 1) = some (method, (methodString method).length) := by
  cases method <;> exact ⟨_, _, rfl, rfl, _, rfl, by decide⟩

/-- A letter of a method changes the state, the method and the index alone, whatever the count. -/
theorem reqMethod_eq (p : Parser) (nread : ℕ) (c : UInt8) :
    ({ p with nread := nread } : Parser).reqMethod c =
      ⟨{ p with
          nread := nread
          state := (p.reqMethod c).parser.state
          method := (p.reqMethod c).parser.method
          index := (p.reqMethod c).parser.index }, [], (p.reqMethod c).flow⟩ := by
  unfold Parser.reqMethod
  simp only
  split_ifs <;> first
    | rfl
    | cases Parser.otherMethod p.method p.index c <;> rfl

theorem react_letter {now after : HttpMethod × ℕ} {c : UInt8}
    (hstep : letterStep now c = some after)
    (nread : ℕ) :
    (lineParser now.1 .reqMethod now.2 nread 0 0).react c =
      ⟨lineParser after.1 .reqMethod after.2 nread 0 0, [], .next⟩ := by
  unfold letterStep at hstep
  simp only at hstep
  split_ifs at hstep with hgoing
  cases hstep
  have heq := reqMethod_eq (lineParser now.1 .reqMethod now.2 0 0 0) nread c
  rw [hgoing.1, hgoing.2] at heq
  exact heq

theorem react_methodEnd (method : HttpMethod) (nread : ℕ) :
    (lineParser method .reqMethod (methodString method).length nread 0 0).react 32 =
      ⟨lineParser method (.reqUrl .spacesBeforeUrl) ((methodString method).length + 1) nread 0 0,
        [], .next⟩ := by
  change (lineParser method .reqMethod (methodString method).length nread 0 0).reqMethod 32 = _
  unfold Parser.reqMethod
  simp [lineParser, Parser.goTo]

/-- The letters of a method. -/
theorem leads_letters [HeaderCounter] {letters : List UInt8} :
    ∀ {now after : HttpMethod × ℕ} {nread : ℕ},
    letters.foldlM letterStep now = some after → nread + letters.length ≤ maxHeaderSize →
    Leads settings len goal rest
      ⟨lineParser after.1 .reqMethod after.2 (nread + letters.length) 0 0, noMarks, user⟩ →
    Leads settings len goal (letters ++ rest)
      ⟨lineParser now.1 .reqMethod now.2 nread 0 0, noMarks, user⟩ := by
  induction letters with
  | nil =>
    intro now after nread hfold _ hrest
    cases hfold
    exact hrest
  | cons c letters ih =>
    intro now after nread hfold hcount hrest
    rw [List.foldlM_cons] at hfold
    obtain ⟨next, hstep, hfold⟩ := Option.bind_eq_some_iff.mp hfold
    rw [List.length_cons] at hcount hrest
    refine leads_quiet (lineParser next.1 .reqMethod next.2 (nread + 1) 0 0) rfl rfl
      (by simp only [lineParser]; omega) (react_letter hstep (nread + 1)) ?_
    refine ih hfold (by omega) ?_
    rwa [show nread + 1 + letters.length = nread + (letters.length + 1) by omega]

/-- The method of a request and the blank behind it. -/
theorem leads_method [HeaderCounter] (method : HttpMethod) {cbs : List Callback} {after : σ}
    (hcalls : runCallbacks settings (.messageBegin :: cbs) user = some after)
    (hcount : (methodString method).length + 1 ≤ maxHeaderSize)
    (hrest : ∀ user, runCallbacks settings cbs user = some after →
      Leads settings len goal rest
        ⟨lineParser method (.reqUrl .spacesBeforeUrl) ((methodString method).length + 1)
          ((methodString method).length + 1) 0 0, noMarks, user⟩) :
    Leads settings len goal (methodString method ++ 32 :: rest)
      ⟨Parser.init .request, noMarks, user⟩ := by
  obtain ⟨hzero, hcalls⟩ := runCallbacks_head hcalls
  obtain ⟨first, letters, hletters, halpha, start, hstart, hfold⟩ := letters_lead method
  have hlength : (methodString method).length = letters.length + 1 := by
    rw [hletters, List.length_cons]
  rw [hletters, List.cons_append]
  have hbreak : ¬ (first = 13 ∨ first = 10) := by
    rintro (rfl | rfl) <;> exact absurd halpha (by decide)
  refine leads_counted rfl (by simp only [Parser.init]; omega)
    (resumes_advance (letters ++ 32 :: rest)
      ⟨lineParser start .reqMethod 1 1 0 0, noMarks, (settings .messageBegin user).2⟩ ?_
        (Nat.lt_succ_self _) ?_)
  · have hreact : ({ Parser.init .request with nread := 1 } : Parser).react first =
        ⟨lineParser start .reqMethod 1 1 0 0, [.notify .messageBegin true], .next⟩ := by
      change ({ Parser.init .request with nread := 1 } : Parser).startReq first = _
      unfold Parser.startReq
      rw [if_neg hbreak, if_neg (by rw [halpha]; decide)]
      simp only [hstart]
      rfl
    rw [pass_eq_perform rfl]
    simp only [Exec.perform]
    rw [show (Parser.init .request).nread + 1 = 1 from rfl, hreact]
    simp only [List.foldlM_cons, List.foldlM_nil, Exec.act]
    rw [call_ok rfl hzero]
    rfl
  · refine leads_letters hfold (by omega) ?_
    refine leads_quiet (lineParser method (.reqUrl .spacesBeforeUrl)
      ((methodString method).length + 1) ((methodString method).length + 1) 0 0) rfl rfl
      (by simp only [lineParser]; omega) ?_ (hrest _ hcalls)
    rw [show 1 + letters.length = (methodString method).length by omega]
    exact react_methodEnd method _

/-! The URL. -/

/-- The states behind the first character of a path. -/
def urlTail : UrlState → Bool
  | .path | .queryStringStart | .queryString | .fragmentStart | .fragment => true
  | _ => false

theorem urlTail_step {s : UrlState} {c : UInt8} (hs : urlTail s = true)
    (hc : isUrlChar c = true ∨ c = 63 ∨ c = 35) : urlTail (parseUrlChar s c) = true := by
  have hmark : urlTail (parseUrlChar s 35) = true := by
    cases s <;> first
      | rfl
      | exact absurd hs (by decide)
  rcases hc with hurl | rfl | rfl
  · have hquery := isQueryChar_of_isUrlChar hurl
    cases s with
    | path => rw [parseUrlChar_path hurl]; rfl
    | queryStringStart => rw [parseUrlChar_query (Or.inl rfl) hquery]; rfl
    | queryString => rw [parseUrlChar_query (Or.inr rfl) hquery]; rfl
    | fragmentStart => rw [parseUrlChar_fragment (Or.inl rfl) hquery]; rfl
    | fragment => rw [parseUrlChar_fragment (Or.inr rfl) hquery]; rfl
    | _ => exact absurd hs (by decide)
  · cases s <;> first
      | rfl
      | exact absurd hs (by decide)
  · exact hmark

/-- A state of a URL that is open behind its first characters, and a character of the URL. -/
theorem react_urlTail {p : Parser} {s : UrlState} {c : UInt8} (hp : p.state = .reqUrl s)
    (hs : urlTail s = true) (hc : isUrlChar c = true ∨ c = 63 ∨ c = 35) :
    p.react c = ⟨{ p with state := .reqUrl (parseUrlChar s c) }, [], .next⟩ := by
  have hother (other : UInt8) (hbad : ¬ (isUrlChar other = true ∨ other = 63 ∨ other = 35)) :
      c ≠ other := by
    rintro rfl
    exact hbad hc
  have halive : parseUrlChar s c ≠ .dead := by
    intro hdead
    have htail := urlTail_step hs hc
    rw [hdead] at htail
    exact absurd htail (by decide)
  have hblank : c ≠ 32 := hother 32 (by decide)
  have hbreak : ¬ (c = 13 ∨ c = 10) :=
    not_or_intro (hother 13 (by decide)) (hother 10 (by decide))
  simp only [Parser.react, hp]
  cases s <;> first
    | exact absurd hs (by decide)
    | simp only [Parser.reqUrl, Parser.urlChar, if_neg hblank, if_neg hbreak, if_neg halive]

theorem react_urlEnd {p : Parser} {s : UrlState} (hp : p.state = .reqUrl s)
    (hs : urlTail s = true) :
    p.react 32 = ⟨{ p with state := .reqHttpStart }, [.data .url true], .next⟩ := by
  simp only [Parser.react, hp]
  cases s <;> first
    | exact absurd hs (by decide)
    | rfl

/-- The slash that a URL begins with sets its mark. -/
theorem leads_urlStart [HeaderCounter] {method : HttpMethod} {index nread : ℕ}
    (hmethod : method ≠ .CONNECT) (hcount : nread + 1 ≤ maxHeaderSize)
    (hrest : Leads settings len goal rest ⟨lineParser method (.reqUrl .path) index (nread + 1) 0 0,
      markedAt .url (47 :: rest), user⟩) :
    Leads settings len goal (47 :: rest)
      ⟨lineParser method (.reqUrl .spacesBeforeUrl) index nread 0 0, noMarks, user⟩ := by
  have hreact : (lineParser method (.reqUrl .spacesBeforeUrl) index (nread + 1) 0 0).react 47 =
      ⟨lineParser method (.reqUrl .path) index (nread + 1) 0 0, [.mark .url], .next⟩ := by
    change (lineParser method _ index (nread + 1) 0 0).reqUrl .spacesBeforeUrl 47 = _
    unfold Parser.reqUrl
    rw [if_neg (by decide), show (lineParser method (.reqUrl .spacesBeforeUrl) index (nread + 1) 0
      0).method = method from rfl, if_neg hmethod]
    rfl
  refine leads_counted rfl hcount (resumes_advance _ _ ?_ (Nat.lt_succ_self _) hrest)
  rw [pass_eq_perform rfl]
  exact congrArg (Exec.perform settings len _ _ _) hreact

/-- The rest of a URL, with the mark of it set, and the blank behind it. -/
theorem leads_urlTail [HeaderCounter] {method : HttpMethod} {index : ℕ} (seen : List UInt8)
    {url : List UInt8}
    {cbs : List Callback} {after : σ} (hurl : ∀ c ∈ url, isUrlChar c = true ∨ c = 63 ∨ c = 35)
    (hcalls : runCallbacks settings (.url (seen ++ url) :: cbs) user = some after) :
    ∀ {s : UrlState} {nread : ℕ}, urlTail s = true → nread + url.length + 1 ≤ maxHeaderSize →
    (∀ user, runCallbacks settings cbs user = some after →
      Leads settings len goal rest
        ⟨lineParser method .reqHttpStart index (nread + url.length + 1) 0 0, noMarks, user⟩) →
    Leads settings len goal (url ++ 32 :: rest)
      ⟨lineParser method (.reqUrl s) index nread 0 0,
        markedAt .url (seen ++ (url ++ 32 :: rest)), user⟩ := by
  induction url generalizing seen with
  | nil =>
    intro s nread hs hcount hrest
    obtain ⟨hzero, hcalls⟩ := runCallbacks_head hcalls
    rw [List.append_nil] at hzero hcalls
    rw [List.nil_append]
    refine leads_counted rfl hcount (resumes_advance rest _ ?_ (Nat.lt_succ_self _)
      (hrest _ hcalls))
    rw [pass_eq_perform (by cases s <;> rfl)]
    simp only [Exec.perform]
    rw [react_urlEnd rfl hs]
    simp only [List.foldlM_cons, List.foldlM_nil, Exec.act]
    rw [report_ok _ rfl hzero]
    rfl
  | cons c url ih =>
    intro s nread hs hcount hrest
    rw [List.length_cons] at hcount
    have hc := hurl c List.mem_cons_self
    refine leads_quiet (lineParser method (.reqUrl (parseUrlChar s c)) index (nread + 1) 0 0)
      (by cases s <;> rfl) (by cases s <;> rfl) (by simp only [lineParser]; omega)
      (react_urlTail rfl hs hc) ?_
    have happend : seen ++ (c :: url ++ 32 :: rest) = seen ++ [c] ++ (url ++ 32 :: rest) := by
      simp
    rw [happend]
    refine ih (seen ++ [c]) (fun d hd ↦ hurl d (List.mem_cons_of_mem _ hd)) (by simpa using hcalls)
      (urlTail_step hs hc) (by omega) ?_
    simpa only [List.length_cons, show nread + 1 + url.length + 1 = nread + (url.length + 1) + 1
      by omega] using hrest

/-! The version. -/

theorem decimal_digit : ∀ {d : ℕ}, d < 10 → decimal d = [UInt8.ofNat (48 + d)] := by
  have hall : ∀ d < 10, decimal d = [UInt8.ofNat (48 + d)] := by decide
  exact fun {d} ↦ hall d

theorem react_digit {p : Parser} {store : ℕ → Parser} {state : ParserState} {d : ℕ} (hd : d < 10) :
    p.versionDigit (UInt8.ofNat (48 + d)) store state = (store d).goTo state := by
  have hnum : ∀ d < 10, isNum (UInt8.ofNat (48 + d)) = true ∧
      (UInt8.ofNat (48 + d)).toNat - 48 = d := by decide
  unfold Parser.versionDigit
  rw [(hnum d hd).1, if_neg (by decide), (hnum d hd).2]

theorem react_major {method : HttpMethod} {index nread d : ℕ} (hd : d < 10) :
    (lineParser method .reqHttpMajor index nread 0 0).react (UInt8.ofNat (48 + d)) =
      ⟨lineParser method .reqHttpDot index nread d 0, [], .next⟩ := by
  simp only [Parser.react, lineParser, react_digit hd]
  rfl

theorem react_minor {method : HttpMethod} {index nread major d : ℕ} (hd : d < 10) :
    (lineParser method .reqHttpMinor index nread major 0).react (UInt8.ofNat (48 + d)) =
      ⟨lineParser method .reqHttpEnd index nread major d, [], .next⟩ := by
  simp only [Parser.react, lineParser, react_digit hd]
  rfl

/-- The version of a request and the line break behind it. -/
theorem leads_version [HeaderCounter] {method : HttpMethod} {index nread major minor : ℕ}
    (hmajor : major < 10) (hminor : minor < 10) (hcount : nread + 10 ≤ maxHeaderSize)
    (hrest : Leads settings len goal rest
      ⟨lineParser method .headerFieldStart index (nread + 10) major minor, noMarks, user⟩) :
    Leads settings len goal
      (72 :: 84 :: 84 :: 80 :: 47 :: (decimal major ++ 46 :: (decimal minor ++ 13 :: 10 :: rest)))
      ⟨lineParser method .reqHttpStart index nread 0 0, noMarks, user⟩ := by
  have hstep (k a b : ℕ) (state' : ParserState) (a' b' : ℕ) {state : ParserState} {c : UInt8}
      {tail : List UInt8} (hparsing : state.parsingHeader = true) (hloop : state.hasLoop = false)
      (hk : k < 10)
      (hreact : (lineParser method state index (nread + k + 1) a b).react c =
        ⟨lineParser method state' index (nread + k + 1) a' b', [], .next⟩)
      (htail : Leads settings len goal tail
        ⟨lineParser method state' index (nread + (k + 1)) a' b', noMarks, user⟩) :
      Leads settings len goal (c :: tail)
        ⟨lineParser method state index (nread + k) a b, noMarks, user⟩ :=
    leads_quiet _ hparsing hloop (by simp only [lineParser]; omega) hreact htail
  rw [decimal_digit hmajor, decimal_digit hminor]
  refine hstep 0 0 0 .reqHttpH 0 0 rfl rfl (by decide) rfl ?_
  refine hstep 1 0 0 .reqHttpHT 0 0 rfl rfl (by decide) rfl ?_
  refine hstep 2 0 0 .reqHttpHTT 0 0 rfl rfl (by decide) rfl ?_
  refine hstep 3 0 0 .reqHttpHTTP 0 0 rfl rfl (by decide) rfl ?_
  refine hstep 4 0 0 .reqHttpMajor 0 0 rfl rfl (by decide) rfl ?_
  refine hstep 5 0 0 .reqHttpDot major 0 rfl rfl (by decide) (react_major hmajor) ?_
  refine hstep 6 major 0 .reqHttpMinor major 0 rfl rfl (by decide) rfl ?_
  refine hstep 7 major 0 .reqHttpEnd major minor rfl rfl (by decide) (react_minor hminor) ?_
  refine hstep 8 major minor .reqLineAlmostDone major minor rfl rfl (by decide) rfl ?_
  exact hstep 9 major minor .headerFieldStart major minor rfl rfl (by decide) rfl hrest

/-- The number of bytes of a request line. -/
def RequestMessage.lineLength (m : RequestMessage) : ℕ :=
  (methodString m.method).length + m.url.length + 12

/-- The request line. -/
theorem leads_requestLine [HeaderCounter] {m : RequestMessage} (hm : m.WellFormed)
    {cbs : List Callback} {after : σ}
    (hcalls : runCallbacks settings (.messageBegin :: .url m.url :: cbs) user = some after)
    (hcount : m.lineLength ≤ maxHeaderSize)
    (hrest : ∀ user, runCallbacks settings cbs user = some after →
      Leads settings len goal rest
        ⟨lineParser m.method .headerFieldStart ((methodString m.method).length + 1) m.lineLength
          m.httpMajor m.httpMinor, noMarks, user⟩) :
    Leads settings len goal
      (methodString m.method ++ 32 :: (m.url ++ 32 ::
        (72 :: 84 :: 84 :: 80 :: 47 ::
          (decimal m.httpMajor ++ 46 :: (decimal m.httpMinor ++ 13 :: 10 :: rest)))))
      ⟨Parser.init .request, noMarks, user⟩ := by
  unfold RequestMessage.lineLength at hcount hrest
  refine leads_method m.method hcalls (by omega) fun user hcalls ↦ ?_
  obtain ⟨url, hurl⟩ : ∃ url, m.url = 47 :: url := by
    cases hcase : m.url with
    | nil => exact absurd (hm.url_slash.symm.trans (congrArg List.head? hcase)) nofun
    | cons c url =>
      have hslash := hm.url_slash
      rw [hcase] at hslash
      exact ⟨url, by rw [Option.some.inj hslash]⟩
  rw [hurl] at hcalls hcount hrest ⊢
  rw [List.length_cons] at hcount hrest
  refine leads_urlStart hm.method_ne (by omega) ?_
  have hchars : ∀ c ∈ url, isUrlChar c = true ∨ c = 63 ∨ c = 35 := by
    intro c hc
    refine hm.url_chars c ?_
    rw [hurl]
    exact List.mem_cons_of_mem _ hc
  refine leads_urlTail [47] hchars hcalls rfl (by omega) fun user hcalls ↦ ?_
  refine leads_version hm.major_lt hm.minor_lt (by omega) ?_
  have hlength : (methodString m.method).length + 1 + 1 + url.length + 1 + 10 =
      (methodString m.method).length + (url.length + 1) + 12 := by omega
  rw [hlength]
  exact hrest user hcalls

end Leading

end Cczoe.Http
