import Cczoe.Http.ParserRequestLine

/-!
# The vendored parser at the end of a buffer

What a buffer that ends in the middle of a message leaves behind. `Reaction.Orderly` is what the
macros of a state do to the elements, and `react_orderly` says that every state without a loop of
its own keeps to it. The two loops of the headers go on in the next buffer where they stopped:
`fieldLoop_append` and `valueScan_append` take them apart, and `valueLoop_eq_some_iff` says that the
bound in the loop over a value does not matter while no header is too long.
-/

set_option autoImplicit false
set_option relaxedAutoImplicit false

namespace Cczoe.Http

open Cczoe.Http.Parser

/-! ### The elements -/

/-- What a reaction does to the elements. It goes through the `switch` again in states without a
loop only; it reports or leaves the element that may be open; and it marks what it opens. -/
structure Reaction.Orderly (before : Parser) (r : Reaction) : Prop where
  retry : r.flow = .reexecute → r.parser.state.hasLoop = false
  opened : ∀ element, before.state.openable = some element →
    r.parser.statusCode = before.statusCode ∧ (r.flow = .next ∨ ∃ errno, r.flow = .fail errno) ∧
      (r.acts = [.data element true] ∨
        r.acts = [] ∧ (r.flow = .next → r.parser.state.openable = some element))
  opens : ∀ element, openElement r.parser.state = some element →
    r.acts = [.mark element] ∨ r.acts = [] ∧ openElement before.state = some element

theorem openElement_of_closed {s : ParserState} (hopen : s.openable = none) :
    openElement s = none := by
  cases s with
  | reqUrl s => cases s <;> first | rfl | cases hopen
  | _ => first | rfl | cases hopen

section Endings

variable {before p : Parser} {r : Reaction}

/-- From a state with nothing open. -/
theorem closed_orderly (hopen : before.state.openable = none)
    (hretry : r.flow = .reexecute → r.parser.state.hasLoop = false)
    (hopens : ∀ element, openElement r.parser.state = some element → r.acts = [.mark element]) :
    Reaction.Orderly before r :=
  ⟨hretry, fun _ hsome ↦ absurd (hopen.symm.trans hsome) (Option.some_ne_none _).symm,
    fun element hsome ↦ Or.inl (hopens element hsome)⟩

theorem closed_orderly_none (hopen : before.state.openable = none)
    (hretry : r.flow = .reexecute → r.parser.state.hasLoop = false)
    (hafter : openElement r.parser.state = none) : Reaction.Orderly before r :=
  closed_orderly hopen hretry fun _ hsome ↦
    absurd (hafter.symm.trans hsome) (Option.some_ne_none _).symm

theorem complete_orderly {flow : Flow} (hopen : before.state.openable = none)
    (hflow : flow ≠ .reexecute) : Reaction.Orderly before (p.complete flow) :=
  closed_orderly_none hopen (fun hretry ↦ absurd hretry hflow)
    (openElement_of_closed (openable_of_plain plain_newMessage))

/-- Within a URL. -/
theorem urlChar_orderly {s : UrlState} {ch : UInt8} (hs : p.state = .reqUrl s)
    (hopen : p.state.openable = some .url) : Reaction.Orderly p (p.urlChar s ch []) := by
  have hbefore : openElement p.state = some .url := by
    rw [hs] at hopen ⊢
    cases s <;> first | rfl | cases hopen
  unfold urlChar
  split_ifs with hdead
  · exact ⟨(fun h ↦ by cases h), fun element _ ↦
      ⟨rfl, Or.inr ⟨_, rfl⟩, Or.inr ⟨rfl, (fun h ↦ by cases h)⟩⟩, fun element h ↦ by cases h⟩
  · have hafter : (ParserState.reqUrl (parseUrlChar s ch)).openable = some .url ∧
        openElement (.reqUrl (parseUrlChar s ch)) = some .url := by
      have hblank : parseUrlChar s ch ≠ .spacesBeforeUrl := parseUrlChar_ne_spaces s
      generalize parseUrlChar s ch = after at hdead hblank
      cases after <;> first
        | exact ⟨rfl, rfl⟩
        | contradiction
    refine ⟨(fun h ↦ by cases h), ?_, ?_⟩
    · intro element helement
      exact ⟨rfl, Or.inl rfl, Or.inr ⟨rfl, fun _ ↦ hafter.1.trans (hopen.symm.trans helement)⟩⟩
    · intro element helement
      exact Or.inr ⟨rfl, hbefore.trans (hafter.2.symm.trans helement)⟩

end Endings

section Reactions

variable {p : Parser} {ch : UInt8}

theorem reqUrl_orderly {s : UrlState} (hne : s ≠ .dead) (hs : p.state = .reqUrl s) :
    Reaction.Orderly p (p.reqUrl s ch) := by
  cases s with
  | dead => exact absurd rfl hne
  | spacesBeforeUrl =>
    have hopen : p.state.openable = none := by rw [hs]; rfl
    have hmarks (s : UrlState) : Reaction.Orderly p (p.urlChar s ch [.mark .url]) := by
      unfold urlChar
      split_ifs
      · exact closed_orderly_none hopen (fun h ↦ by cases h) rfl
      · refine closed_orderly hopen (fun h ↦ by cases h) fun element helement ↦ ?_
        revert helement
        cases parseUrlChar s ch <;> intro helement <;> cases helement <;> rfl
    unfold reqUrl
    simp only
    split_ifs
    · exact closed_orderly_none hopen (fun h ↦ by cases h) (openElement_of_closed hopen)
    · exact hmarks _
    · exact hmarks _
  | schema | schemaSlash | schemaSlashSlash | serverStart =>
    unfold reqUrl
    simp only
    split_ifs
    · refine ⟨(fun h ↦ by cases h), fun element _ ↦
        ⟨rfl, Or.inr ⟨_, rfl⟩, Or.inr ⟨rfl, (fun h ↦ by cases h)⟩⟩, ?_⟩
      exact fun element helement ↦ Or.inr ⟨rfl, helement⟩
    · exact urlChar_orderly hs (by rw [hs]; rfl)
  | server | serverWithAt | path | queryStringStart | queryString | fragmentStart | fragment =>
    have hopen : p.state.openable = some .url := by rw [hs]; rfl
    unfold reqUrl
    simp only
    split_ifs <;> first
      | exact urlChar_orderly hs hopen
      | exact ⟨(fun h ↦ by cases h), fun element helement ↦ ⟨rfl, Or.inl rfl,
          Or.inl (by rw [Option.some.inj (hopen.symm.trans helement)])⟩, fun element h ↦ by cases h⟩

/-- Every state without a loop of its own. -/
theorem react_orderly (hp : p.SoundAt 1) (hloop : p.state.hasLoop = false) :
    Reaction.Orderly p (p.react ch) := by
  have hfits := hp.fits
  cases hs : p.state with
  | headerField | headerValue | chunkData | bodyIdentity | bodyIdentityEof =>
    rw [hs] at hloop
    exact absurd hloop (by decide)
  | reqUrl s =>
    simp only [StateFits, hs] at hfits
    simpa only [react, hs] using reqUrl_orderly hfits hs
  | resStatus =>
    simp only [react, hs, resStatus]
    split_ifs <;> constructor <;> simp [hs, ParserState.openable, openElement, stay]
  | chunkDataAlmostDone =>
    simp only [StateFits, hs] at hfits
    simp only [react, hs, chunkDataAlmostDone, asserting, if_pos hfits]
    split_ifs <;> constructor <;> simp [hs, ParserState.openable, openElement, failWith]
  | headersDone =>
    have hopen : p.state.openable = none := by rw [hs]; rfl
    simp only [react, hs, headersDone]
    split_ifs <;> first
      | exact complete_orderly hopen (fun h ↦ by cases h)
      | exact closed_orderly_none hopen (fun h ↦ by cases h) rfl
      | exact closed_orderly_none hopen (fun h ↦ by cases h) (openElement_of_closed hopen)
  | messageDone =>
    have hopen : p.state.openable = none := by rw [hs]; rfl
    simp only [react, hs]
    split_ifs <;> exact complete_orderly hopen (fun h ↦ by cases h)
  | headerFieldStart | headerValueDiscardWs | headerValueStart | headerValueDiscardLws
  | resStatusStart =>
    have hopen : p.state.openable = none := by rw [hs]; rfl
    simp only [react, hs, resStatusStart, headerFieldStart, headerValueDiscardWs,
      headerValueStart, headerValueDiscardLws]
    (repeat' split) <;> refine closed_orderly hopen ?_ ?_ <;>
      simp_all [goTo, stay, failWith, retryIn, openElement, ParserState.hasLoop]
  | resStatusCode | headerValueLws | headersAlmostDone =>
    have hopen : p.state.openable = none := by rw [hs]; rfl
    simp only [react, hs, resStatusCode, headerValueLws, headersAlmostDone]
    split_ifs <;> first
      | exact closed_orderly_none hopen (fun _ ↦ rfl) rfl
      | exact closed_orderly_none hopen (fun h ↦ by cases h) (openElement_of_closed hopen)
  | _ =>
    have hopen : p.state.openable = none := by rw [hs]; rfl
    simp only [react, hs, expect, versionDigit, versionDot, startRes, startReq, resHttpEnd,
      resFirstStatusCode, reqMethod, reqHttpStart, reqHttpEnd, lineFeed, chunkSizeStart,
      chunkSize, chunkParameters, chunkSizeAlmostDone, chunkDataDone, asserting]
    (repeat' split) <;> first
      | exact closed_orderly_none hopen (fun h ↦ by cases h) rfl
      | exact closed_orderly_none hopen (fun h ↦ by cases h) (openElement_of_closed hopen)

end Reactions

/-! ### The loop over a name -/

/-- The parser with another count of header bytes. -/
def Parser.counting (p : Parser) (n : ℕ) : Parser := { p with nread := n }

def FieldEnd.counting (n : ℕ) : FieldEnd → FieldEnd
  | .stopped at_ parser => .stopped at_ (parser.counting n)
  | .ended parser => .ended (parser.counting n)

/-- No letter looks at the count. -/
theorem fieldStep_counting (p : Parser) (n : ℕ) (ch c : UInt8) :
    (p.counting n).fieldStep ch c = (p.fieldStep ch c).map (·.counting n) := by
  obtain ⟨type, flags, state, headerState⟩ := p
  cases headerState with
  | connection | contentLength | transferEncoding | upgrade =>
    simp only [fieldStep, counting]
    split_ifs <;> rfl
  | _ => rfl

theorem fieldLoop_counting (n : ℕ) (data : List UInt8) : ∀ p : Parser,
    fieldLoop data (p.counting n) = (fieldLoop data p).map (FieldEnd.counting n) := by
  induction data with
  | nil => exact fun p ↦ rfl
  | cons ch rest ih =>
    intro p
    rw [fieldLoop, fieldLoop]
    cases token ch with
    | none => rfl
    | some c =>
      simp only [fieldStep_counting]
      cases p.fieldStep ch c with
      | none => rfl
      | some after => exact ih after

/-- The count at an end of the loop. -/
def FieldEnd.nread : FieldEnd → ℕ
  | .stopped _ parser => parser.nread
  | .ended parser => parser.nread

/-- The loop does not count. -/
theorem fieldLoop_nread {data : List UInt8} {p : Parser} {result : FieldEnd}
    (hloop : fieldLoop data p = some result) : result.nread = p.nread := by
  have hcounted := fieldLoop_counting p.nread data p
  change fieldLoop data p = _ at hcounted
  rw [hloop, Option.map_some] at hcounted
  rw [Option.some.inj hcounted]
  cases result <;> rfl

/-- The loop goes on in the next buffer where it stopped. -/
theorem fieldLoop_append (data tail : List UInt8) : ∀ p : Parser,
    fieldLoop (data ++ tail) p =
      match fieldLoop data p with
      | some (.stopped at_ after) => some (.stopped (at_ ++ tail) after)
      | some (.ended after) => fieldLoop tail after
      | none => none := by
  induction data with
  | nil => exact fun p ↦ rfl
  | cons ch rest ih =>
    intro p
    rw [List.cons_append, fieldLoop, fieldLoop]
    cases token ch with
    | none => rfl
    | some c =>
      cases hstep : p.fieldStep ch c with
      | none => simp only [hstep]
      | some after =>
        simp only [hstep]
        exact ih after

/-! ### The loop over a value -/

/-- The loop over a value without the bound of its inner loop. -/
def valueScan : List UInt8 → HeaderState → Parser → Option ValueEnd
  | [], h, parser => some (.ended h parser)
  | ch :: rest, h, parser =>
    if ch = 13 ∨ ch = 10 then some (.lineBreak (ch :: rest) h parser)
    else if parser.lenientHttpHeaders = false ∧ isHeaderChar ch = false then
      some (.failed (ch :: rest) parser .invalidHeaderToken)
    else
      match parser.valueStep ch h with
      | .going h' parser' => valueScan rest h' parser'
      | .fail h' parser' errno =>
        some (.failed (ch :: rest) { parser' with headerState := h' } errno)
      | .assertion => none

/-- The bytes behind those that the loop has looked at. -/
def ValueEnd.rest : ValueEnd → List UInt8
  | .lineBreak at_ _ _ => at_.tail
  | .ended _ _ => []
  | .failed at_ _ _ => at_.tail

theorem valueScan_rest_le {data : List UInt8} : ∀ {h : HeaderState} {p : Parser}
    {result : ValueEnd}, valueScan data h p = some result →
    result.rest.length ≤ data.length - 1 := by
  induction data with
  | nil =>
    rintro h p result hscan
    cases hscan
    exact le_rfl
  | cons ch rest ih =>
    intro h p result hscan
    have hnow : rest.length ≤ (ch :: rest).length - 1 := le_rfl
    rw [valueScan] at hscan
    split_ifs at hscan
    · cases hscan
      exact hnow
    · cases hscan
      exact hnow
    · split at hscan
      · exact (ih hscan).trans (by simp)
      · cases hscan
        exact hnow
      · cases hscan

/-- The loop stops at a byte. -/
theorem valueScan_stop_ne {data stop : List UInt8} {h' : HeaderState} {after : Parser} :
    ∀ {h : HeaderState} {p : Parser}, valueScan data h p = some (.lineBreak stop h' after) →
      stop ≠ [] := by
  induction data with
  | nil =>
    intro h p hscan
    cases hscan
  | cons ch rest ih =>
    intro h p hscan
    rw [valueScan] at hscan
    split_ifs at hscan
    · cases hscan
      exact List.cons_ne_nil ch rest
    · cases hscan
    · split at hscan
      · exact ih hscan
      · cases hscan
      · cases hscan

theorem valueLoop_rest_le {data : List UInt8} : ∀ {inner : Option ℕ} {h : HeaderState} {p : Parser}
    {result : ValueEnd}, valueLoop data inner h p = some result →
    result.rest.length ≤ data.length - 1 := by
  induction data with
  | nil =>
    rintro inner h p result hloop
    rw [valueLoop] at hloop
    cases hloop
    exact le_rfl
  | cons ch rest ih =>
    intro inner h p result hloop
    have hnow : rest.length ≤ (ch :: rest).length - 1 := le_rfl
    have hlater : rest.length - 1 ≤ (ch :: rest).length - 1 := by simp
    rcases inner with _ | _ | left
    all_goals rw [valueLoop] at hloop
    · split_ifs at hloop
      · cases hloop
        exact hnow
      · cases hloop
        exact hnow
      · exact (ih hloop).trans hlater
      · split at hloop
        · exact (ih hloop).trans hlater
        · cases hloop
          exact hnow
        · cases hloop
    · exact (ih hloop).trans hlater
    · split_ifs at hloop
      · cases hloop
        exact hnow
      · cases hloop
        exact hnow
      · exact (ih hloop).trans hlater

/-- The number of bytes that the loop looks at without a byte that it steps over. -/
def innerBound : Option ℕ → ℕ
  | none => maxHeaderSize
  | some left => left

/-- Assumes: an end within the bound. The loop comes to it when the loop without the bound does. -/
theorem valueLoop_eq_some_iff {data : List UInt8} {result : ValueEnd} :
    ∀ {inner : Option ℕ} {h : HeaderState} {p : Parser}, (inner ≠ none → h = .general) →
    data.length - result.rest.length ≤ innerBound inner →
    (valueLoop data inner h p = some result ↔ valueScan data h p = some result) := by
  induction data with
  | nil =>
    intro inner h p _ _
    rw [valueLoop, valueScan]
  | cons ch rest ih =>
    intro inner h p hgeneral hbound
    rw [List.length_cons] at hbound
    have hmax : 0 < maxHeaderSize := by decide
    rcases inner with _ | _ | left
    · rw [valueLoop, valueScan]
      split_ifs with hbreak hbad hcase
      · rfl
      · rfl
      · rw [hcase]
        refine ih (fun _ ↦ rfl) ?_
        change _ ≤ maxHeaderSize at hbound
        change _ ≤ min (rest.length + 1) maxHeaderSize - 1
        omega
      · cases p.valueStep ch h with
        | going h' after =>
          refine ih (fun hne ↦ absurd rfl hne) ?_
          change _ ≤ maxHeaderSize at hbound ⊢
          omega
        | fail h' after errno => rfl
        | assertion => rfl
    · change _ ≤ 0 at hbound
      have hnever (hrest : result.rest.length ≤ rest.length) : False := by omega
      constructor
      · intro hloop
        exact (hnever (valueLoop_rest_le hloop)).elim
      · intro hscan
        exact (hnever (valueScan_rest_le hscan)).elim
    · rw [valueLoop, valueScan]
      obtain rfl := hgeneral (fun h ↦ by cases h)
      split_ifs with hbreak hbad
      · rfl
      · rfl
      · refine ih (fun _ ↦ rfl) ?_
        change _ ≤ left + 1 at hbound
        change _ ≤ left
        omega

/-- An end of the loop at which the parser goes on. -/
def ValueEnd.Goes : ValueEnd → Prop
  | .lineBreak at_ _ _ => at_ ≠ []
  | .ended _ _ => True
  | .failed _ _ _ => False

/-- The parser with what a buffer that ends in a value stores. -/
def Parser.storing (p : Parser) (n : ℕ) (h : HeaderState) : Parser :=
  { p with nread := n, headerState := h }

def ValueEnd.storing (n : ℕ) (h : HeaderState) : ValueEnd → ValueEnd
  | .lineBreak at_ h' parser => .lineBreak at_ h' (parser.storing n h)
  | .ended h' parser => .ended h' (parser.storing n h)
  | .failed at_ parser errno => .failed at_ parser errno

def Parser.ValueStep.storing (n : ℕ) (h : HeaderState) : ValueStep → ValueStep
  | .going h' parser => .going h' (parser.storing n h)
  | .fail h' parser errno => .fail h' (parser.storing n h) errno
  | .assertion => .assertion

theorem contentLengthDigit_storing (p : Parser) (n : ℕ) (h : HeaderState) (ch : UInt8) :
    (p.storing n h).contentLengthDigit ch = (p.contentLengthDigit ch).storing n h := by
  unfold contentLengthDigit
  change (if _ then _ else if _ then _ else if (ullongMax - 10) / 10 < p.contentLength then _
    else _) = _
  split_ifs <;> rfl

/-- No step looks at what is stored. -/
theorem valueStep_storing (p : Parser) (n : ℕ) (h : HeaderState) (ch : UInt8) (h' : HeaderState) :
    (p.storing n h).valueStep ch h' = (p.valueStep ch h').storing n h := by
  cases h' <;>
    simp only [valueStep, contentLengthDigit_storing, tokenLetter, otherToken, connectionWord]
  all_goals first
    | rfl
    | split_ifs <;> rfl

theorem valueLoop_storing (n : ℕ) (h : HeaderState) {data : List UInt8} {result : ValueEnd}
    (hgoes : result.Goes) : ∀ {inner : Option ℕ} {h' : HeaderState} {p : Parser},
      valueLoop data inner h' p = some result →
      valueLoop data inner h' (p.storing n h) = some (result.storing n h) := by
  induction data with
  | nil =>
    intro inner h' p hloop
    rw [valueLoop] at hloop ⊢
    cases hloop
    rfl
  | cons ch rest ih =>
    intro inner h' p hloop
    have hlenient : (p.storing n h).lenientHttpHeaders = p.lenientHttpHeaders := rfl
    rcases inner with _ | _ | left
    all_goals rw [valueLoop] at hloop ⊢
    · simp only [hlenient, valueStep_storing]
      split_ifs at hloop ⊢
      · cases hloop
        rfl
      · cases hloop
        exact hgoes.elim
      · exact ih hloop
      · cases hstep : p.valueStep ch h' with
        | going h'' after =>
          rw [hstep] at hloop
          exact ih hloop
        | fail h'' after errno =>
          rw [hstep] at hloop
          cases hloop
          exact hgoes.elim
        | assertion =>
          rw [hstep] at hloop
          cases hloop
    · exact ih hloop
    · simp only [hlenient]
      split_ifs at hloop ⊢
      · cases hloop
        rfl
      · cases hloop
        exact hgoes.elim
      · exact ih hloop

/-- The count at an end of the loop. -/
def ValueEnd.nread : ValueEnd → ℕ
  | .lineBreak _ _ parser => parser.nread
  | .ended _ parser => parser.nread
  | .failed _ parser _ => parser.nread

/-- The loop does not count. -/
theorem valueLoop_nread {data : List UInt8} {inner : Option ℕ} {h : HeaderState} {p : Parser}
    {result : ValueEnd} (hloop : valueLoop data inner h p = some result) (hgoes : result.Goes) :
    result.nread = p.nread := by
  have hstored := valueLoop_storing p.nread p.headerState hgoes hloop
  change valueLoop data inner h p = _ at hstored
  rw [Option.some.inj (hloop.symm.trans hstored)]
  cases result with
  | failed at_ parser errno => exact hgoes.elim
  | _ => rfl

/-- The loop goes on in the next buffer where it stopped. -/
theorem valueScan_append (data tail : List UInt8) : ∀ (h : HeaderState) (p : Parser),
    valueScan (data ++ tail) h p =
      match valueScan data h p with
      | some (.lineBreak at_ h' after) => some (.lineBreak (at_ ++ tail) h' after)
      | some (.ended h' after) => valueScan tail h' after
      | some (.failed at_ after errno) => some (.failed (at_ ++ tail) after errno)
      | none => none := by
  induction data with
  | nil => exact fun h p ↦ rfl
  | cons ch rest ih =>
    intro h p
    rw [List.cons_append, valueScan, valueScan]
    split_ifs
    · rfl
    · rfl
    · cases p.valueStep ch h with
      | going h' after => exact ih h' after
      | fail h' after errno => rfl
      | assertion => rfl

end Cczoe.Http
