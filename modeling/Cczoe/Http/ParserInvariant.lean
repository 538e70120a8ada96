import Cczoe.Http.ParserExecution

/-!
# The invariant of the vendored parser

`Parser.SoundAt` is what the fields of `http_parser` are to each other in each state, and
`ParserState.openable` the element that may be open in it. There is one lemma for every state: it
does not fail an assertion, leaves a sound state, and asks for another way through the `switch` only
in a state of a lower `rank`. `react_sound` puts them together; `fieldLoop_sound` and
`valueLoop_sound` are about the two loops inside a state.
-/

set_option autoImplicit false
set_option relaxedAutoImplicit false

namespace Cczoe.Http

open Foundations

/-! ### The invariant of the fields -/

/-- The header states while a name is read. -/
def HeaderState.inName : HeaderState → Bool
  | .general | .c | .co | .con | .matchingConnection | .matchingProxyConnection
  | .matchingContentLength | .matchingTransferEncoding | .matchingUpgrade | .connection
  | .contentLength | .transferEncoding | .upgrade => true
  | _ => false

/-- The header states while a value is read. -/
def HeaderState.inValue : HeaderState → Bool
  | .connection | .transferEncoding => false
  | _ => true

/-- The most ways through the `switch` that a byte may need in a state. -/
def ParserState.rank : ParserState → ℕ
  | .headerValueLws | .headerValueDiscardLws => 4
  | .headerFieldStart | .resStatusCode => 3
  | .headersAlmostDone | .resStatusStart | .bodyIdentity | .headerValue => 2
  | _ => 1

/-- The element that may be open in a state. -/
def ParserState.openable : ParserState → Option Element
  | .headerField => some .headerField
  | .headerValue => some .headerValue
  | .reqUrl .dead | .reqUrl .spacesBeforeUrl => none
  | .reqUrl _ => some .url
  | .resStatus => some .status
  | .bodyIdentity | .bodyIdentityEof | .chunkData | .chunkDataAlmostDone => some .body
  | _ => none

/-- The states that ask nothing of the fields and have no element open. -/
def ParserState.plain : ParserState → Bool
  | .reqMethod | .reqUrl _ | .headerField | .headerValue | .resStatus | .chunkSizeStart
  | .chunkSize | .chunkParameters | .chunkSizeAlmostDone | .chunkData | .chunkDataAlmostDone
  | .chunkDataDone | .bodyIdentity | .bodyIdentityEof => false
  | _ => true

/-- The states with a loop of their own in the `switch`. -/
def ParserState.hasLoop : ParserState → Bool
  | .headerField | .headerValue | .bodyIdentity | .bodyIdentityEof | .chunkData => true
  | _ => false

namespace Parser

/-- What holds of the fields in a state. `counted` is the number of bytes of a chunk header that
have been counted when its first byte is looked at: none between two bytes. -/
def StateFits (counted : ℕ) (p : Parser) : Prop :=
  match p.state with
  | .reqMethod => p.index ≤ (methodString p.method).length
  | .reqUrl s => s ≠ .dead
  | .headerField => p.headerState.inName = true
  | .headerValue => p.headerState.inValue = true
  | .chunkSizeStart => p.flags.chunked = true ∧ p.nread = counted
  | .chunkSize | .chunkParameters | .chunkSizeAlmostDone =>
    p.flags.chunked = true ∧ p.contentLength ≠ ullongMax
  | .chunkData => p.flags.chunked = true ∧ p.contentLength ≠ 0 ∧ p.contentLength ≠ ullongMax
  | .chunkDataAlmostDone => p.flags.chunked = true ∧ p.contentLength = 0
  | .chunkDataDone => p.flags.chunked = true
  | .bodyIdentity => p.contentLength ≠ 0 ∧ p.contentLength ≠ ullongMax
  | _ => True

/-- The invariant of the fields. -/
structure SoundAt (counted : ℕ) (p : Parser) : Prop where
  fits : p.StateFits counted
  length_le : p.contentLength ≤ ullongMax

end Parser

/-! ### The reactions keep it -/

/-- The macros of a state for an element that may be open in front of them and one that may be open
behind them. Callbacks without data run when nothing is open. -/
def actsFit : Option Element → List Act → Option Element → Prop
  | opened, [], after => opened = none ∨ opened = after
  | opened, .mark element :: acts, after =>
    (opened = none ∨ opened = some element) ∧ actsFit (some element) acts after
  | opened, .data element _ :: acts, after =>
    (opened = none ∨ opened = some element) ∧ actsFit none acts after
  | opened, .notify _ _ :: acts, after => opened = none ∧ actsFit none acts after
  | opened, .headersComplete :: acts, after => opened = none ∧ actsFit none acts after

/-- A reaction in a sound state does not fail an assertion, leaves a sound state and asks for
another way through the `switch` only in a state of a lower rank. -/
structure Reaction.Sound (before : Parser) (r : Reaction) : Prop where
  flow : match r.flow with
    | .next => r.parser.SoundAt 0 ∧ actsFit before.state.openable r.acts r.parser.state.openable
    | .reexecute =>
      r.parser.SoundAt 1 ∧ actsFit before.state.openable r.acts r.parser.state.openable ∧
        r.parser.state.rank < before.state.rank
    | .fail errno => errno ≠ .ok
    | .exit => r.parser.SoundAt 0 ∧ r.parser.upgrade = true
    | .assertion => False
  errno : r.parser.httpErrno = before.httpErrno

namespace Parser

variable {p : Parser} {ch : UInt8}

theorem fits_of_plain {counted : ℕ} (hplain : p.state.plain = true) : p.StateFits counted := by
  unfold StateFits
  cases hstate : p.state <;> simp_all [ParserState.plain]

theorem openable_of_plain {s : ParserState} (hplain : s.plain = true) : s.openable = none := by
  cases s <;> simp_all [ParserState.plain, ParserState.openable]

theorem plain_newMessage : p.newMessage.plain = true := by
  unfold newMessage startState
  split_ifs <;> rfl

/-! The ways in which a reaction ends, from a parser with the fields that matter unchanged. -/

section Endings

variable {before : Parser} {s : ParserState} {errno : HttpErrno}

theorem failWith_sound (herrno : p.httpErrno = before.httpErrno) (hne : errno ≠ .ok) :
    Reaction.Sound before (p.failWith errno) := ⟨hne, herrno⟩

theorem goTo_sound (herrno : p.httpErrno = before.httpErrno) (hlength : p.contentLength ≤ ullongMax)
    (hfits : ({ p with state := s } : Parser).StateFits 0)
    (hopen : before.state.openable = none) : Reaction.Sound before (p.goTo s) :=
  ⟨⟨⟨hfits, hlength⟩, Or.inl hopen⟩, herrno⟩

theorem goTo_plain_sound (herrno : p.httpErrno = before.httpErrno)
    (hlength : p.contentLength ≤ ullongMax) (hopen : before.state.openable = none)
    (hplain : s.plain = true) : Reaction.Sound before (p.goTo s) :=
  goTo_sound herrno hlength (fits_of_plain hplain) hopen

theorem stay_sound (herrno : p.httpErrno = before.httpErrno) (hstate : p.state = before.state)
    (hlength : p.contentLength ≤ ullongMax) (hfits : p.StateFits 0) :
    Reaction.Sound before p.stay :=
  ⟨⟨⟨hfits, hlength⟩, Or.inr (congrArg _ hstate.symm)⟩, herrno⟩

theorem retryIn_sound (herrno : p.httpErrno = before.httpErrno)
    (hlength : p.contentLength ≤ ullongMax) (hopen : before.state.openable = none)
    (hplain : s.plain = true) (hrank : s.rank < before.state.rank) :
    Reaction.Sound before (p.retryIn s) :=
  ⟨⟨⟨fits_of_plain hplain, hlength⟩, Or.inl hopen, hrank⟩, herrno⟩

theorem expect_sound {expected : UInt8} (herrno : p.httpErrno = before.httpErrno)
    (hlength : p.contentLength ≤ ullongMax) (hopen : before.state.openable = none)
    (hplain : s.plain = true) : Reaction.Sound before (p.expect ch expected s) := by
  unfold expect
  split_ifs
  · exact failWith_sound herrno nofun
  · exact goTo_plain_sound herrno hlength hopen hplain

end Endings

/-! The states, one by one. -/

theorem lt_length_of_letter {word : List UInt8} {index : ℕ} (hne : word.getD index 0 ≠ 0) :
    index < word.length := by
  by_contra hge
  rw [List.getD_eq_getElem?_getD, List.getElem?_eq_none (not_lt.mp hge)] at hne
  exact hne rfl

/-- Another method than the one looked for is longer than the letters seen. -/
theorem lt_length_otherMethod {method other : HttpMethod} {index : ℕ}
    (hother : otherMethod method index ch = some other) :
    index < (methodString other).length := by
  unfold otherMethod at hother
  split at hother <;> cases hother <;> decide

theorem startReq_sound (hp : p.SoundAt 1) (hs : p.state = .startReq) :
    Reaction.Sound p (p.startReq ch) := by
  unfold startReq
  split_ifs
  · exact stay_sound rfl rfl hp.length_le (fits_of_plain (by rw [hs]; rfl))
  · exact failWith_sound rfl nofun
  · cases hmethod : firstMethod ch with
    | none => exact failWith_sound rfl nofun
    | some method =>
      have hfits : 1 ≤ (methodString method).length := by cases method <;> decide
      exact ⟨⟨⟨hfits, le_rfl⟩, by rw [hs]; exact ⟨rfl, Or.inl rfl⟩⟩, rfl⟩

theorem reqMethod_sound (hp : p.SoundAt 1) (hs : p.state = .reqMethod) :
    Reaction.Sound p (p.reqMethod ch) := by
  have hindex : p.index ≤ (methodString p.method).length := by
    have hfits := hp.fits
    rwa [StateFits, hs] at hfits
  have hgoing (method : HttpMethod) (hlt : p.index < (methodString method).length) :
      Reaction.Sound p ({ p with method := method, index := p.index + 1 } : Parser).stay := by
    refine stay_sound rfl rfl hp.length_le ?_
    rw [StateFits, hs]
    exact hlt
  unfold reqMethod
  simp only
  split_ifs with hzero hlong hspace hletter hother
  · exact failWith_sound rfl nofun
  · exact absurd hindex (not_le.mpr hlong)
  · exact goTo_sound rfl hp.length_le nofun (by rw [hs]; rfl)
  · exact hgoing p.method (lt_length_of_letter (by rw [← hletter]; exact hzero))
  · cases hmethod : otherMethod p.method p.index ch with
    | none => exact failWith_sound rfl nofun
    | some method => exact hgoing method (lt_length_otherMethod hmethod)
  · exact failWith_sound rfl nofun

/-- A URL state with the URL open leads to another. -/
theorem urlChar_sound {s : UrlState} {acts : List Act} (hp : p.SoundAt 1)
    (hacts : actsFit p.state.openable acts (some .url))
    (hblank : parseUrlChar s ch ≠ .spacesBeforeUrl) : Reaction.Sound p (p.urlChar s ch acts) := by
  unfold urlChar
  split_ifs with hdead
  · exact ⟨nofun, rfl⟩
  · refine ⟨⟨⟨hdead, hp.length_le⟩, ?_⟩, rfl⟩
    have hopen : (ParserState.reqUrl (parseUrlChar s ch)).openable = some .url := by
      generalize parseUrlChar s ch = after at hdead hblank
      cases after <;> first
        | rfl
        | contradiction
    simpa [hopen] using hacts

theorem parseUrlChar_ne_spaces (s : UrlState) : parseUrlChar s ch ≠ .spacesBeforeUrl := by
  unfold parseUrlChar
  cases s <;> simp only <;> split_ifs <;> exact nofun

theorem reqUrl_sound {s : UrlState} (hp : p.SoundAt 1) (hs : p.state = .reqUrl s) :
    Reaction.Sound p (p.reqUrl s ch) := by
  have hne : s ≠ .dead := by
    have hfits := hp.fits
    rwa [StateFits, hs] at hfits
  have hstay : Reaction.Sound p p.stay := 
    stay_sound rfl rfl hp.length_le (by rw [StateFits, hs]; exact hne)
  have hdone (state : ParserState) (hplain : state.plain = true) (major minor : ℕ)
      (hopen : p.state.openable = some .url) :
      Reaction.Sound p ⟨{ p with httpMajor := major, httpMinor := minor, state := state },
        [.data .url true], .next⟩ :=
    ⟨⟨⟨fits_of_plain hplain, hp.length_le⟩, Or.inr hopen, Or.inl rfl⟩, rfl⟩
  cases s with
  | dead => exact absurd rfl hne
  | spacesBeforeUrl =>
    unfold reqUrl
    simp only
    split_ifs
    · exact hstay
    · exact urlChar_sound hp (by rw [hs]; exact ⟨Or.inl rfl, Or.inr rfl⟩) (parseUrlChar_ne_spaces _)
    · exact urlChar_sound hp (by rw [hs]; exact ⟨Or.inl rfl, Or.inr rfl⟩) (parseUrlChar_ne_spaces _)
  | schema | schemaSlash | schemaSlashSlash | serverStart =>
    unfold reqUrl
    simp only
    split_ifs
    · exact failWith_sound rfl nofun
    · exact urlChar_sound hp (by rw [hs]; exact Or.inr rfl) (parseUrlChar_ne_spaces _)
  | server | serverWithAt | path | queryStringStart | queryString | fragmentStart | fragment =>
    unfold reqUrl
    simp only
    split_ifs <;> first
      | exact hdone _ rfl _ _ (by rw [hs]; rfl)
      | exact urlChar_sound hp (by rw [hs]; exact Or.inr rfl) (parseUrlChar_ne_spaces _)

theorem versionDigit_sound {store : ℕ → Parser} {s : ParserState}
    (herrno : ∀ digit, (store digit).httpErrno = p.httpErrno)
    (hlength : ∀ digit, (store digit).contentLength ≤ ullongMax)
    (hopen : p.state.openable = none) (hplain : s.plain = true) :
    Reaction.Sound p (p.versionDigit ch store s) := by
  unfold versionDigit
  split_ifs
  · exact failWith_sound rfl nofun
  · exact goTo_plain_sound (herrno _) (hlength _) hopen hplain

theorem resStatusCode_sound (hp : p.SoundAt 1) (hs : p.state = .resStatusCode) :
    Reaction.Sound p (p.resStatusCode ch) := by
  unfold resStatusCode
  simp only
  split_ifs
  · exact goTo_plain_sound rfl hp.length_le (by rw [hs]; rfl) rfl
  · exact retryIn_sound rfl hp.length_le (by rw [hs]; rfl) rfl (by rw [hs]; decide)
  · exact failWith_sound rfl nofun
  · exact failWith_sound rfl nofun
  · exact stay_sound rfl rfl hp.length_le (fits_of_plain (by rw [hs]; rfl))

theorem resStatusStart_sound (hp : p.SoundAt 1) (hs : p.state = .resStatusStart) :
    Reaction.Sound p (p.resStatusStart ch) := by
  unfold resStatusStart
  refine ⟨?_, rfl⟩
  have hacts : actsFit p.state.openable [.mark .status] (some .status) := by
    rw [hs]
    exact ⟨Or.inl rfl, Or.inr rfl⟩
  split_ifs
  · exact ⟨⟨trivial, hp.length_le⟩, hacts, by simp [hs, ParserState.rank]⟩
  · exact ⟨⟨trivial, hp.length_le⟩, hacts⟩

theorem resStatus_sound (hp : p.SoundAt 1) (hs : p.state = .resStatus) :
    Reaction.Sound p (p.resStatus ch) := by
  have hacts (state : ParserState) :
      actsFit p.state.openable [.data .status true] state.openable := by
    rw [hs]
    exact ⟨Or.inr rfl, Or.inl rfl⟩
  unfold resStatus
  split_ifs
  · exact ⟨⟨⟨trivial, hp.length_le⟩, hacts _⟩, rfl⟩
  · exact ⟨⟨⟨trivial, hp.length_le⟩, hacts _⟩, rfl⟩
  · exact stay_sound rfl rfl hp.length_le (by rw [StateFits, hs]; trivial)

theorem headerFieldStart_sound (hp : p.SoundAt 1) (hs : p.state = .headerFieldStart) :
    Reaction.Sound p (p.headerFieldStart ch) := by
  unfold headerFieldStart
  split_ifs
  · exact goTo_plain_sound rfl hp.length_le (by rw [hs]; rfl) rfl
  · exact retryIn_sound rfl hp.length_le (by rw [hs]; rfl) rfl (by rw [hs]; decide)
  · cases token ch with
    | none => exact failWith_sound rfl nofun
    | some c =>
      have hname : (firstHeaderState c).inName = true := by
        unfold firstHeaderState
        split_ifs <;> rfl
      exact ⟨⟨⟨hname, hp.length_le⟩, by rw [hs]; exact ⟨Or.inl rfl, Or.inr rfl⟩⟩, rfl⟩

/-- The header states in which a value begins. -/
theorem headerValueStart_sound (hp : p.SoundAt 1) (hopen : p.state.openable = none) :
    Reaction.Sound p (p.headerValueStart ch) := by
  have hacts : actsFit p.state.openable [.mark .headerValue] (some .headerValue) := by
    rw [hopen]
    exact ⟨Or.inl rfl, Or.inr rfl⟩
  have hgoing (started : Parser) (hstate : started.state = .headerValue)
      (hlength : started.contentLength ≤ ullongMax) (herrno : started.httpErrno = p.httpErrno)
      (hvalue : started.headerState.inValue = true) :
      Reaction.Sound p ⟨started, [.mark .headerValue], .next⟩ := by
    refine ⟨⟨⟨?_, hlength⟩, ?_⟩, herrno⟩
    · rw [StateFits, hstate]
      exact hvalue
    · rw [hstate]
      exact hacts
  have hdigit : ch.toNat - 48 ≤ ullongMax := by
    have hlt := ch.toNat_lt
    have hmax : 256 ≤ ullongMax := by decide
    omega
  unfold headerValueStart
  simp only
  split
  · exact hgoing _ rfl hp.length_le rfl rfl
  · exact hgoing _ rfl hp.length_le rfl (by split_ifs <;> rfl)
  · split_ifs
    · exact ⟨nofun, rfl⟩
    · exact ⟨nofun, rfl⟩
    · exact hgoing _ rfl hdigit rfl rfl
  · exact hgoing _ rfl hp.length_le rfl (by split_ifs <;> rfl)
  · exact hgoing _ rfl hp.length_le rfl (by simp_all [HeaderState.inValue])
  · exact hgoing _ rfl hp.length_le rfl (by simp_all [HeaderState.inValue])
  · exact hgoing _ rfl hp.length_le rfl (by simp_all [HeaderState.inValue])
  · exact hgoing _ rfl hp.length_le rfl rfl

theorem headerValueDiscardWs_sound (hp : p.SoundAt 1) (hs : p.state = .headerValueDiscardWs) :
    Reaction.Sound p (p.headerValueDiscardWs ch) := by
  unfold headerValueDiscardWs
  split_ifs
  · exact stay_sound rfl rfl hp.length_le (fits_of_plain (by rw [hs]; rfl))
  · exact goTo_plain_sound rfl hp.length_le (by rw [hs]; rfl) rfl
  · exact goTo_plain_sound rfl hp.length_le (by rw [hs]; rfl) rfl
  · exact headerValueStart_sound hp (by rw [hs]; rfl)

theorem headerValueLws_sound (hp : p.SoundAt 1) (hs : p.state = .headerValueLws) :
    Reaction.Sound p (p.headerValueLws ch) := by
  unfold headerValueLws
  split_ifs
  all_goals exact retryIn_sound rfl hp.length_le (by rw [hs]; rfl) rfl (by rw [hs]; decide)

theorem headerValueDiscardLws_sound (hp : p.SoundAt 1) (hs : p.state = .headerValueDiscardLws) :
    Reaction.Sound p (p.headerValueDiscardLws ch) := by
  unfold headerValueDiscardLws
  split_ifs
  · exact goTo_plain_sound rfl hp.length_le (by rw [hs]; rfl) rfl
  · exact failWith_sound rfl nofun
  · have hacts : actsFit p.state.openable [.mark .headerValue, .data .headerValue false] none := by
      rw [hs]
      exact ⟨Or.inl rfl, Or.inr rfl, Or.inl rfl⟩
    exact ⟨⟨⟨trivial, hp.length_le⟩, hacts, by simp [hs, ParserState.rank]⟩, rfl⟩

/-! The end of the headers and the chunks. -/

theorem complete_next_sound {before : Parser} (herrno : p.httpErrno = before.httpErrno)
    (hlength : p.contentLength ≤ ullongMax) (hopen : before.state.openable = none) :
    Reaction.Sound before (p.complete .next) :=
  ⟨⟨⟨fits_of_plain plain_newMessage, hlength⟩, hopen, Or.inl rfl⟩, herrno⟩

theorem complete_exit_sound {before : Parser} (herrno : p.httpErrno = before.httpErrno)
    (hlength : p.contentLength ≤ ullongMax) (hupgrade : p.upgrade = true) :
    Reaction.Sound before (p.complete .exit) :=
  ⟨⟨⟨fits_of_plain plain_newMessage, hlength⟩, hupgrade⟩, herrno⟩

theorem headersAlmostDone_sound (hp : p.SoundAt 1) (hs : p.state = .headersAlmostDone) :
    Reaction.Sound p (p.headersAlmostDone ch) := by
  have hopen : p.state.openable = none := by rw [hs]; rfl
  unfold headersAlmostDone
  split_ifs
  · exact failWith_sound rfl nofun
  · exact ⟨⟨⟨trivial, hp.length_le⟩, ⟨hopen, Or.inl rfl⟩, by simp [hs, ParserState.rank]⟩, rfl⟩
  · exact failWith_sound rfl nofun
  · exact ⟨⟨⟨trivial, hp.length_le⟩, ⟨hopen, Or.inl rfl⟩, by simp [hs, ParserState.rank]⟩, rfl⟩
  · exact ⟨⟨⟨trivial, hp.length_le⟩, ⟨hopen, Or.inl rfl⟩, by simp [hs, ParserState.rank]⟩, rfl⟩

theorem headersDone_sound (hp : p.SoundAt 1) (hs : p.state = .headersDone) :
    Reaction.Sound p p.headersDone := by
  have hopen : p.state.openable = none := by rw [hs]; rfl
  unfold headersDone
  simp only
  split_ifs with hexit hskip hchunked hencoding hrequest hzero hlength heof
  · exact complete_exit_sound rfl hp.length_le hexit.1
  · exact complete_next_sound rfl hp.length_le hopen
  · exact goTo_sound rfl hp.length_le ⟨hchunked, rfl⟩ hopen
  · exact failWith_sound rfl nofun
  · exact goTo_sound rfl hp.length_le trivial hopen
  · exact complete_next_sound rfl hp.length_le hopen
  · exact goTo_sound rfl hp.length_le ⟨hzero, hlength⟩ hopen
  · exact complete_next_sound rfl hp.length_le hopen
  · exact goTo_sound rfl hp.length_le trivial hopen

theorem unhex_lt {digit : ℕ} (hdigit : unhex ch = some digit) : digit < 16 := by
  unfold unhex at hdigit
  split_ifs at hdigit with hnum hupper hlower
  · cases hdigit
    have := UInt8.le_iff_toNat_le.mp hnum.2
    simp at this
    omega
  · cases hdigit
    have := UInt8.le_iff_toNat_le.mp hupper.2
    simp at this
    omega
  · cases hdigit
    have := UInt8.le_iff_toNat_le.mp hlower.2
    simp at this
    omega
  · cases hdigit
    decide

theorem chunkSizeStart_sound (hp : p.SoundAt 1) (hs : p.state = .chunkSizeStart) :
    Reaction.Sound p (p.chunkSizeStart ch) := by
  have hfits := hp.fits
  rw [StateFits, hs] at hfits
  unfold chunkSizeStart asserting
  rw [if_pos ⟨hfits.2, hfits.1⟩]
  cases hdigit : unhex ch with
  | none => exact failWith_sound rfl nofun
  | some digit =>
    have hlt := unhex_lt hdigit
    have hmax : 16 ≤ ullongMax := by decide
    have hne : digit ≠ ullongMax := by omega
    have hle : digit ≤ ullongMax := by omega
    exact goTo_sound rfl hle ⟨hfits.1, hne⟩ (by rw [hs]; rfl)

theorem chunkSize_sound (hp : p.SoundAt 1) (hs : p.state = .chunkSize) :
    Reaction.Sound p (p.chunkSize ch) := by
  have hfits := hp.fits
  rw [StateFits, hs] at hfits
  have hopen : p.state.openable = none := by rw [hs]; rfl
  unfold chunkSize asserting
  rw [if_pos hfits.1]
  by_cases hcr : ch = 13
  · rw [if_pos hcr]
    exact goTo_sound rfl hp.length_le hfits hopen
  · rw [if_neg hcr]
    cases hdigit : unhex ch with
    | none =>
      simp only
      split_ifs
      · exact goTo_sound rfl hp.length_le hfits hopen
      · exact failWith_sound rfl nofun
    | some digit =>
      simp only
      split_ifs with hoverflow
      · exact failWith_sound rfl nofun
      · have hlt := unhex_lt hdigit
        have hsum : p.contentLength * 16 + digit < ullongMax := by
          unfold ullongMax at hoverflow ⊢
          omega
        refine stay_sound rfl rfl hsum.le ?_
        rw [StateFits, hs]
        exact ⟨hfits.1, hsum.ne⟩

theorem chunkParameters_sound (hp : p.SoundAt 1) (hs : p.state = .chunkParameters) :
    Reaction.Sound p (p.chunkParameters ch) := by
  have hfits := hp.fits
  rw [StateFits, hs] at hfits
  unfold chunkParameters asserting
  rw [if_pos hfits.1]
  split_ifs
  · exact goTo_sound rfl hp.length_le hfits (by rw [hs]; rfl)
  · exact stay_sound rfl rfl hp.length_le (by rw [StateFits, hs]; exact hfits)

theorem chunkSizeAlmostDone_sound (hp : p.SoundAt 1) (hs : p.state = .chunkSizeAlmostDone) :
    Reaction.Sound p (p.chunkSizeAlmostDone ch) := by
  have hfits := hp.fits
  rw [StateFits, hs] at hfits
  have hopen : p.state.openable = none := by rw [hs]; rfl
  unfold chunkSizeAlmostDone asserting
  rw [if_pos hfits.1]
  split_ifs with hstrict hlast
  · exact failWith_sound rfl nofun
  · exact ⟨⟨⟨trivial, hp.length_le⟩, hopen, Or.inl rfl⟩, rfl⟩
  · exact ⟨⟨⟨⟨hfits.1, hlast, hfits.2⟩, hp.length_le⟩, hopen, Or.inl rfl⟩, rfl⟩

theorem chunkDataAlmostDone_sound (hp : p.SoundAt 1) (hs : p.state = .chunkDataAlmostDone) :
    Reaction.Sound p (p.chunkDataAlmostDone ch) := by
  have hfits := hp.fits
  rw [StateFits, hs] at hfits
  unfold chunkDataAlmostDone asserting
  rw [if_pos hfits]
  split_ifs
  · exact failWith_sound rfl nofun
  · refine ⟨⟨⟨hfits.1, hp.length_le⟩, ?_⟩, rfl⟩
    rw [hs]
    exact ⟨Or.inr rfl, Or.inl rfl⟩

theorem chunkDataDone_sound (hp : p.SoundAt 1) (hs : p.state = .chunkDataDone) :
    Reaction.Sound p (p.chunkDataDone ch) := by
  have hfits := hp.fits
  rw [StateFits, hs] at hfits
  unfold chunkDataDone asserting
  rw [if_pos hfits]
  split_ifs
  · exact failWith_sound rfl nofun
  · exact ⟨⟨⟨⟨hfits, rfl⟩, hp.length_le⟩, by rw [hs]; exact ⟨rfl, Or.inl rfl⟩⟩, rfl⟩

/-- Every state without a loop of its own keeps the invariant. -/
theorem react_sound (hp : p.SoundAt 1) (hloop : p.state.hasLoop = false) :
    Reaction.Sound p (p.react ch) := by
  have hlength := hp.length_le
  have hplain (state : ParserState) (hs : p.state = state) (h : state.plain = true) :
      p.state.openable = none := by
    rw [hs]
    exact openable_of_plain h
  cases hs : p.state with
  | dead =>
    simp only [react, hs]
    split_ifs
    · exact stay_sound rfl rfl hlength (fits_of_plain (by rw [hs]; rfl))
    · exact failWith_sound rfl nofun
  | startRes =>
    simp only [react, hs, startRes]
    split_ifs
    · exact stay_sound rfl rfl hlength (fits_of_plain (by rw [hs]; rfl))
    · exact ⟨⟨⟨trivial, le_rfl⟩, hplain _ hs rfl, Or.inl rfl⟩, rfl⟩
    · exact failWith_sound rfl nofun
  | resH | resHT | resHTT | resHTTP | resLineAlmostDone | reqHttpH | reqHttpHT | reqHttpHTT
  | reqHttpHTTP | reqHttpI | reqHttpIC | headerValueDiscardWsAlmostDone =>
    simp only [react, hs]
    exact expect_sound rfl hlength (hplain _ hs rfl) rfl
  | resHttpMajor | resHttpMinor | reqHttpMajor | reqHttpMinor =>
    simp only [react, hs]
    exact versionDigit_sound (fun _ ↦ rfl) (fun _ ↦ hlength) (hplain _ hs rfl) rfl
  | resHttpDot | reqHttpDot =>
    simp only [react, hs, versionDot]
    split_ifs
    · exact failWith_sound rfl nofun
    · exact goTo_plain_sound rfl hlength (hplain _ hs rfl) rfl
  | resHttpEnd =>
    simp only [react, hs, resHttpEnd]
    split_ifs
    · exact failWith_sound rfl nofun
    · exact goTo_plain_sound rfl hlength (hplain _ hs rfl) rfl
  | resFirstStatusCode =>
    simp only [react, hs, resFirstStatusCode]
    split_ifs
    · exact stay_sound rfl rfl hlength (fits_of_plain (by rw [hs]; rfl))
    · exact failWith_sound rfl nofun
    · exact goTo_plain_sound rfl hlength (hplain _ hs rfl) rfl
  | reqHttpStart =>
    simp only [react, hs, reqHttpStart]
    split_ifs
    · exact stay_sound rfl rfl hlength (fits_of_plain (by rw [hs]; rfl))
    · exact goTo_plain_sound rfl hlength (hplain _ hs rfl) rfl
    · exact goTo_plain_sound rfl hlength (hplain _ hs rfl) rfl
    · exact failWith_sound rfl nofun
  | reqHttpEnd =>
    simp only [react, hs, reqHttpEnd]
    split_ifs
    · exact goTo_plain_sound rfl hlength (hplain _ hs rfl) rfl
    · exact goTo_plain_sound rfl hlength (hplain _ hs rfl) rfl
    · exact failWith_sound rfl nofun
  | reqLineAlmostDone | headerAlmostDone =>
    simp only [react, hs, lineFeed]
    split_ifs
    · exact failWith_sound rfl nofun
    · exact goTo_plain_sound rfl hlength (hplain _ hs rfl) rfl
  | headersDone =>
    simp only [react, hs]
    split_ifs
    · exact failWith_sound rfl nofun
    · exact headersDone_sound hp hs
  | messageDone =>
    simp only [react, hs]
    split_ifs with hupgrade
    · exact complete_exit_sound rfl hlength hupgrade
    · exact complete_next_sound rfl hlength (hplain _ hs rfl)
  | resStatusCode => simpa only [react, hs] using resStatusCode_sound hp hs
  | resStatusStart => simpa only [react, hs] using resStatusStart_sound hp hs
  | resStatus => simpa only [react, hs] using resStatus_sound hp hs
  | startReq => simpa only [react, hs] using startReq_sound hp hs
  | reqMethod => simpa only [react, hs] using reqMethod_sound hp hs
  | reqUrl s => simpa only [react, hs] using reqUrl_sound hp hs
  | headerFieldStart => simpa only [react, hs] using headerFieldStart_sound hp hs
  | headerValueDiscardWs => simpa only [react, hs] using headerValueDiscardWs_sound hp hs
  | headerValueDiscardLws => simpa only [react, hs] using headerValueDiscardLws_sound hp hs
  | headerValueStart => simpa only [react, hs] using headerValueStart_sound hp (hplain _ hs rfl)
  | headerValueLws => simpa only [react, hs] using headerValueLws_sound hp hs
  | headersAlmostDone => simpa only [react, hs] using headersAlmostDone_sound hp hs
  | chunkSizeStart => simpa only [react, hs] using chunkSizeStart_sound hp hs
  | chunkSize => simpa only [react, hs] using chunkSize_sound hp hs
  | chunkParameters => simpa only [react, hs] using chunkParameters_sound hp hs
  | chunkSizeAlmostDone => simpa only [react, hs] using chunkSizeAlmostDone_sound hp hs
  | chunkDataAlmostDone => simpa only [react, hs] using chunkDataAlmostDone_sound hp hs
  | chunkDataDone => simpa only [react, hs] using chunkDataDone_sound hp hs
  | headerField | headerValue | chunkData | bodyIdentity | bodyIdentityEof =>
    rw [hs] at hloop
    exact absurd hloop (by decide)

end Parser

/-! ### The loops keep it -/

/-- What a loop in a state leaves of the fields. -/
structure Parser.Kept (before after : Parser) : Prop where
  state : after.state = before.state
  errno : after.httpErrno = before.httpErrno
  length_le : before.contentLength ≤ ullongMax → after.contentLength ≤ ullongMax

/-- An end of the loop over a header name in `len` bytes. -/
def FieldEnd.Sound (before : Parser) (len : ℕ) : FieldEnd → Prop
  | .stopped at_ after =>
    before.Kept after ∧ after.headerState.inName = true ∧ at_ ≠ [] ∧ at_.length ≤ len
  | .ended after => before.Kept after ∧ after.headerState.inName = true

/-- A step over a header value goes on in a header state of a value. -/
def Parser.ValueStep.Sound (before : Parser) : Parser.ValueStep → Prop
  | .going h after => h.inValue = true ∧ before.Kept after
  | .fail _ _ errno => errno ≠ .ok
  | .assertion => False

/-- An end of the loop over a header value in `len` bytes. -/
def ValueEnd.Sound (before : Parser) (len : ℕ) : ValueEnd → Prop
  | .lineBreak at_ h after =>
    h.inValue = true ∧ before.Kept after ∧ at_ ≠ [] ∧ at_.length ≤ len
  | .ended h after => h.inValue = true ∧ before.Kept after
  | .failed at_ _ errno => errno ≠ .ok ∧ at_.length ≤ len

namespace Parser

variable {p : Parser} {ch : UInt8}

theorem Kept.refl (p : Parser) : p.Kept p := ⟨rfl, rfl, id⟩

theorem Kept.trans {first second third : Parser} (hfirst : first.Kept second)
    (hsecond : second.Kept third) : first.Kept third :=
  ⟨hsecond.state.trans hfirst.state, hsecond.errno.trans hfirst.errno,
    hsecond.length_le ∘ hfirst.length_le⟩

theorem inName_matchWord {word : List UInt8} {index : ℕ} {c : UInt8}
    {other matched going : HeaderState} (hother : other.inName = true)
    (hmatched : matched.inName = true) (hgoing : going.inName = true) :
    (matchWord word index c other matched going).inName = true := by
  unfold matchWord
  split_ifs <;> assumption

theorem fieldStep_sound (ch c : UInt8) (hname : p.headerState.inName = true) :
    ∃ after, p.fieldStep ch c = some after ∧ p.Kept after ∧ after.headerState.inName = true := by
  unfold fieldStep
  split
  case h_1 => exact ⟨p, rfl, Kept.refl p, hname⟩
  case h_14 => simp_all [HeaderState.inName]
  case h_10 | h_11 | h_12 | h_13 =>
    refine ⟨_, rfl, ?_⟩
    split_ifs
    · exact ⟨⟨rfl, rfl, id⟩, rfl⟩
    · exact ⟨Kept.refl p, hname⟩
  case h_2 | h_3 | h_4 => exact ⟨_, rfl, ⟨rfl, rfl, id⟩, by simp only; split_ifs <;> rfl⟩
  all_goals exact ⟨_, rfl, ⟨rfl, rfl, id⟩, inName_matchWord rfl rfl rfl⟩

/-- The loop over a header name does not fail. -/
theorem fieldLoop_sound (data : List UInt8) : ∀ {p : Parser}, p.headerState.inName = true →
    ∃ result, fieldLoop data p = some result ∧ result.Sound p data.length := by
  induction data with
  | nil => exact fun hname ↦ ⟨_, rfl, Kept.refl _, hname⟩
  | cons ch rest ih =>
    intro p hname
    rw [fieldLoop]
    cases htoken : token ch with
    | none => exact ⟨_, rfl, Kept.refl p, hname, List.cons_ne_nil _ _, le_rfl⟩
    | some c =>
      obtain ⟨after, hstep, hkept, hname'⟩ := p.fieldStep_sound ch c hname
      obtain ⟨result, hloop, hresult⟩ := ih hname'
      simp only [hstep]
      refine ⟨result, hloop, ?_⟩
      cases result with
      | stopped at_ final =>
        obtain ⟨hfinal, hinName, hne, hle⟩ := hresult
        exact ⟨hkept.trans hfinal, hinName, hne, hle.trans (Nat.le_succ _)⟩
      | ended final => exact ⟨hkept.trans hresult.1, hresult.2⟩

theorem inValue_matchWord {word : List UInt8} {index : ℕ} {c : UInt8}
    {other matched going : HeaderState} (hother : other.inValue = true)
    (hmatched : matched.inValue = true) (hgoing : going.inValue = true) :
    (matchWord word index c other matched going).inValue = true := by
  unfold matchWord
  split_ifs <;> assumption

theorem contentLengthDigit_sound : (p.contentLengthDigit ch).Sound p := by
  unfold contentLengthDigit
  split_ifs with hblank hnum hoverflow
  · exact ⟨rfl, Kept.refl p⟩
  · exact nofun
  · exact nofun
  · refine ⟨rfl, rfl, rfl, fun _ ↦ ?_⟩
    have hdigit : ch.toNat - 48 ≤ 9 := by
      simp only [isNum, Bool.not_eq_false, Bool.and_eq_true, decide_eq_true_eq] at hnum
      have hle : ch.toNat ≤ 57 := UInt8.le_iff_toNat_le.mp hnum.2
      omega
    have hlength : p.contentLength ≤ (ullongMax - 10) / 10 := not_lt.mp hoverflow
    change p.contentLength * 10 + (ch.toNat - 48) ≤ ullongMax
    unfold ullongMax at hlength ⊢
    omega

theorem valueStep_sound (ch : UInt8) {h : HeaderState} (hvalue : h.inValue = true) :
    (p.valueStep ch h).Sound p := by
  have hword {word : String} {c : UInt8} {other matched going : HeaderState}
      (hother : other.inValue = true) (hmatched : matched.inValue = true)
      (hgoing : going.inValue = true) :
      (p.tokenLetter word c other matched going).Sound p :=
    ⟨inValue_matchWord hother hmatched hgoing, rfl, rfl, id⟩
  have hother {start going : HeaderState} (hstart : start.inValue = true)
      (hgoing : going.inValue = true) : (p.otherToken ch start going).Sound p := by
    unfold otherToken
    split_ifs
    · exact ⟨hstart, rfl, rfl, id⟩
    · exact ⟨hgoing, Kept.refl p⟩
  have hconnection {flags : Flags} : (p.connectionWord ch h flags).Sound p := by
    unfold connectionWord
    split_ifs
    · exact ⟨rfl, rfl, rfl, id⟩
    · exact ⟨rfl, Kept.refl p⟩
    · exact ⟨hvalue, Kept.refl p⟩
  cases h with
  | connection | transferEncoding => exact absurd hvalue (by decide)
  | general | c | co | con | matchingConnection | matchingProxyConnection
  | matchingContentLength | matchingTransferEncoding | matchingUpgrade | upgrade =>
    exact ⟨rfl, Kept.refl p⟩
  | contentLength =>
    simp only [valueStep]
    split_ifs
    · exact ⟨rfl, Kept.refl p⟩
    · exact contentLengthDigit_sound
  | contentLengthNum => exact contentLengthDigit_sound
  | contentLengthWs =>
    simp only [valueStep]
    split_ifs
    · exact ⟨rfl, Kept.refl p⟩
    · exact nofun
  | matchingTransferEncodingTokenStart | matchingConnectionTokenStart =>
    simp only [valueStep]
    split_ifs <;> exact ⟨rfl, Kept.refl p⟩
  | matchingTransferEncodingChunked | matchingConnectionKeepAlive | matchingConnectionClose
  | matchingConnectionUpgrade => exact hword rfl rfl rfl
  | matchingTransferEncodingToken | matchingConnectionToken => exact hother rfl rfl
  | transferEncodingChunked =>
    simp only [valueStep]
    split_ifs <;> exact ⟨rfl, Kept.refl p⟩
  | connectionKeepAlive | connectionClose | connectionUpgrade => exact hconnection

/-- The loop over a header value does not fail an assertion. -/
theorem valueLoop_sound (data : List UInt8) : ∀ (inner : Option ℕ) (p : Parser) {h : HeaderState},
    h.inValue = true →
    ∃ result, valueLoop data inner h p = some result ∧ result.Sound p data.length := by
  induction data with
  | nil =>
    intro inner p h hvalue
    exact ⟨.ended h p, by rw [valueLoop], hvalue, Kept.refl p⟩
  | cons ch rest ih =>
    intro inner p h hvalue
    have hgoing {inner' : Option ℕ} {h' : HeaderState} {p' : Parser} (hvalue' : h'.inValue = true)
        (hkept : p.Kept p') : ∃ result, valueLoop rest inner' h' p' = some result ∧
          result.Sound p (ch :: rest).length := by
      obtain ⟨result, hloop, hresult⟩ := ih inner' p' hvalue'
      refine ⟨result, hloop, ?_⟩
      cases result with
      | lineBreak at_ h' after =>
        obtain ⟨hh, hafter, hne, hle⟩ := hresult
        exact ⟨hh, hkept.trans hafter, hne, hle.trans (Nat.le_succ _)⟩
      | ended h' after => exact ⟨hresult.1, hkept.trans hresult.2⟩
      | failed at_ after errno => exact ⟨hresult.1, hresult.2.trans (Nat.le_succ _)⟩
    have hbreak : (ValueEnd.lineBreak (ch :: rest) h p).Sound p (ch :: rest).length :=
      ⟨hvalue, Kept.refl p, List.cons_ne_nil _ _, le_rfl⟩
    cases inner with
    | some left =>
      cases left with
      | zero =>
        rw [valueLoop]
        exact hgoing hvalue (Kept.refl p)
      | succ left =>
        rw [valueLoop]
        split_ifs
        · exact ⟨_, rfl, hbreak⟩
        · exact ⟨_, rfl, nofun, le_rfl⟩
        · exact hgoing hvalue (Kept.refl p)
    | none =>
      rw [valueLoop]
      split_ifs
      · exact ⟨_, rfl, hbreak⟩
      · exact ⟨_, rfl, nofun, le_rfl⟩
      · exact hgoing rfl (Kept.refl p)
      · have hstep := p.valueStep_sound ch hvalue
        revert hstep
        cases p.valueStep ch h with
        | going h' after => exact fun hstep ↦ hgoing hstep.1 hstep.2
        | fail h' after errno => exact fun hstep ↦ ⟨_, rfl, hstep, le_rfl⟩
        | assertion => exact fun hstep ↦ absurd hstep id

end Parser

end Cczoe.Http
