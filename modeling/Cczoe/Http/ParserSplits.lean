import Cczoe.Http.ParserBoundaries

/-!
# A way through the `switch` over two buffers

A buffer may end anywhere in a message. `pass_extend` compares a way through the `switch` over
`first ++ second` with the same way over `first`, when no loop inside a state comes to the end of
`first`: only the marks are longer. When one does, `pass_cut` says that the way over the whole goes
on in `second` as a new way does. One count and the counts of two parts are the same with a counter
that never wraps around (`ExactCounter`).
-/

set_option autoImplicit false
set_option relaxedAutoImplicit false

namespace Cczoe.Http

open Foundations

/-- A counter that never wraps around. -/
class ExactCounter extends HeaderCounter where
  hold_eq (n : ℕ) : hold n = n

/-- A call that takes its whole buffer without an error. -/
def Completes {σ : Type} (len : ℕ) (r : Returned σ) : Prop :=
  r.parser.httpErrno = .ok ∧ r.nparsed = len

/-- The same exit at the end of a part of a buffer and at the end of the buffer, when no bytes
follow. -/
def SameExit {σ : Type} (tail : List UInt8) (len : ℕ) (r r' : Returned σ) : Prop :=
  tail = [] ∧ r' = ⟨len, r.parser, r.user⟩

/-- The pointers in a buffer seen in a longer buffer. -/
def Exec.extend {σ : Type} (tail : List UInt8) (e : Exec σ) : Exec σ :=
  { e with marks := Option.map (· ++ tail) ∘ e.marks }

def Next.extend {σ : Type} (tail : List UInt8) : Next σ → Next σ
  | .advance rest e => .advance (rest ++ tail) (e.extend tail)
  | .reexecute at_ ch e => .reexecute (at_ ++ tail) ch (e.extend tail)

section Executing

variable {σ : Type} {settings : Callback → σ → ℕ × σ} {len before len' nparsed nparsed' : ℕ}
  {tail at_ rest : List UInt8} {e e' : Exec σ} {errno : HttpErrno} {c ch : UInt8}

theorem Exec.SoundAt.extend {counted : ℕ} (he : e.SoundAt counted) :
    (e.extend tail).SoundAt counted where
  parser := he.parser
  errno := he.errno
  marks := fun element hset ↦ he.marks element fun hnone ↦
    hset (congrArg (Option.map (· ++ tail)) hnone)

theorem Exec.extend_parser : (e.extend tail).parser = e.parser := rfl

/-! ### The macros -/

theorem Exec.extend_mark (element : Element) (at_ : List UInt8) :
    (e.extend tail).mark element (at_ ++ tail) = (e.mark element at_).extend tail := by
  unfold Exec.mark Exec.extend
  simp only [Function.comp_apply, Option.isNone_map]
  split_ifs
  · simp only [Function.comp_update, Option.map_some]
  · rfl

theorem marked_extend (mark stop : List UInt8) :
    marked (mark ++ tail) (stop ++ tail) = marked mark stop := by
  unfold marked
  rw [List.length_append, List.length_append, Nat.add_sub_add_right,
    List.take_append_of_le_length (Nat.sub_le _ _)]

theorem fail_rejected {α : Type} (hne : errno ≠ .ok) :
    Rejected (Completes len) (e.fail errno nparsed : ParseM σ α) :=
  fun hcompletes ↦ hne hcompletes.1

/-- A callback on the same user data. -/
theorem call_follows {sameResult : Returned σ → Returned σ → Prop} {callback : Callback}
    (e e' : Exec σ) (hne : errno ≠ .ok) (herrno : e'.parser.httpErrno = e.parser.httpErrno)
    (huser : e'.user = e.user) :
    Follows (Completes len) sameResult
      (fun after after' ↦ after = { e with user := after.user } ∧
        after' = { e' with user := after.user })
      (e.call settings callback errno nparsed) (e'.call settings callback errno nparsed') := by
  unfold Exec.call
  rw [herrno, huser]
  by_cases hok : e.parser.httpErrno = .ok
  · simp only [hok, ne_eq, not_true_eq_false, if_false]
    split_ifs
    · exact ⟨_, rfl, rfl, rfl⟩
    · exact (fail_rejected hne).follows
  · rw [if_pos hok]
    trivial

/-- The relation between a run in a longer buffer and a run in a part of it. -/
def Extends (tail : List UInt8) (e e' : Exec σ) : Prop := e = e'.extend tail

theorem call_extend {callback : Callback} (hne : errno ≠ .ok) :
    Follows (Completes len) (SameExit tail len') (Extends tail)
      ((e.extend tail).call settings callback errno nparsed)
      (e.call settings callback errno nparsed') := by
  refine (call_follows (e.extend tail) e hne rfl rfl).imp ?_
  rintro after after' ⟨hafter, hafter'⟩
  rw [Extends, hafter, hafter']
  rfl

theorem report_extend {element : Element} (stop : List UInt8) :
    Follows (Completes len) (SameExit tail len') (Extends tail)
      ((e.extend tail).report settings element (stop ++ tail) nparsed)
      (e.report settings element stop nparsed') := by
  unfold Exec.report
  by_cases hok : e.parser.httpErrno = .ok
  · have hok' : ¬ (e.extend tail).parser.httpErrno ≠ .ok := not_not_intro hok
    rw [if_neg hok', if_neg (not_not_intro hok)]
    cases hmark : e.marks element with
    | none =>
      have hnone : (e.extend tail).marks element = none := congrArg (Option.map (· ++ tail)) hmark
      rw [hnone]
      exact ⟨e, rfl, rfl⟩
    | some mark =>
      have hsome : (e.extend tail).marks element = some (mark ++ tail) :=
        congrArg (Option.map (· ++ tail)) hmark
      rw [hsome]
      simp only [marked_extend]
      refine (call_extend element.errno_ne).bind ?_
      rintro after after' rfl
      refine ⟨_, rfl, ?_⟩
      simp only [Extends, Exec.extend, Function.comp_update, Option.map_none]
  · have hok' : (e.extend tail).parser.httpErrno ≠ .ok := hok
    rw [if_pos hok']
    trivial

theorem countHeaderSize_extend [HeaderCounter] {count : ℕ} :
    Follows (Completes len) (SameExit tail len') (Extends tail)
      ((e.extend tail).countHeaderSize count nparsed) (e.countHeaderSize count nparsed') := by
  unfold Exec.countHeaderSize
  change Follows _ _ _
    (if maxHeaderSize < HeaderCounter.hold (e.parser.nread + count) then _ else _)
    (if maxHeaderSize < HeaderCounter.hold (e.parser.nread + count) then _ else _)
  split_ifs
  · refine Rejected.follows (fail_rejected ?_)
    decide
  · exact ⟨_, rfl, rfl⟩

theorem headersComplete_extend :
    Follows (Completes len) (SameExit tail len') (Extends tail)
      ((e.extend tail).headersComplete settings nparsed) (e.headersComplete settings nparsed') := by
  unfold Exec.headersComplete Exec.extend
  simp only
  generalize settings _ e.user = called
  obtain ⟨code, user⟩ := called
  rcases code with _ | _ | _ | code
  · exact ⟨_, rfl, rfl⟩
  · exact ⟨_, rfl, rfl⟩
  · exact ⟨_, rfl, rfl⟩
  · refine Rejected.follows (fail_rejected ?_)
    decide

theorem act_extend (act : Act) :
    Follows (Completes len) (SameExit tail len') (Extends tail)
      ((e.extend tail).act settings len (at_ ++ tail) act) (e.act settings len' at_ act) := by
  cases act with
  | mark element => exact ⟨_, rfl, Exec.extend_mark element at_⟩
  | data element consume => exact report_extend at_
  | notify notification consume => exact call_extend notification.errno_ne
  | headersComplete => exact headersComplete_extend

theorem acts_extend (acts : List Act) : ∀ {e : Exec σ},
    Follows (Completes len) (SameExit tail len') (Extends tail)
      (acts.foldlM (fun e act ↦ e.act settings len (at_ ++ tail) act) (e.extend tail))
      (acts.foldlM (fun e act ↦ e.act settings len' at_ act) e) := by
  induction acts with
  | nil => exact ⟨_, rfl, rfl⟩
  | cons act acts ih =>
    intro e
    rw [List.foldlM_cons, List.foldlM_cons]
    refine (act_extend act).bind ?_
    rintro after after' rfl
    exact ih

/-- An exit behind a byte completes the longer buffer when no bytes follow. -/
theorem exit_extend {α β : Type} {same : α → β → Prop} (hne : at_ ≠ [])
    (hlen : at_.length ≤ len') (hlens : len = before + len' + tail.length) :
    Follows (Completes len) (SameExit tail len') same
      ((e.extend tail).exit (offset len (at_ ++ tail) + 1) : ParseM σ α)
      (e.exit (offset len' at_ + 1) : ParseM σ β) := by
  have hpos := List.length_pos_of_ne_nil hne
  rintro ⟨-, hall⟩
  change offset len (at_ ++ tail) + 1 = len at hall
  have hlast : tail.length = 0 ∧ offset len' at_ + 1 = len' := by
    unfold offset at hall ⊢
    rw [List.length_append] at hall
    omega
  exact ⟨_, rfl, List.eq_nil_of_length_eq_zero hlast.1, by rw [hlast.2]; rfl⟩

theorem perform_extend {ch : UInt8} (reaction : Reaction) (hfail : reaction.flow ≠ .fail .ok)
    (hne : at_ ≠ []) (hlen : at_.length ≤ len') (hlens : len = before + len' + tail.length) :
    Follows (Completes len) (SameExit tail len') (fun next next' ↦ next = next'.extend tail)
      ((e.extend tail).perform settings len (at_ ++ tail) ch reaction)
      (e.perform settings len' at_ ch reaction) := by
  obtain ⟨first, rest, rfl⟩ := List.exists_cons_of_ne_nil hne
  unfold Exec.perform
  refine Follows.bind (acts_extend reaction.acts (e := { e with parser := reaction.parser })) ?_
  rintro after after' rfl
  cases hflow : reaction.flow with
  | next => exact ⟨_, rfl, rfl⟩
  | reexecute => exact ⟨_, rfl, rfl⟩
  | fail errno =>
    refine (fail_rejected ?_).follows
    rintro rfl
    exact hfail hflow
  | exit => exact exit_extend hne hlen hlens
  | assertion => trivial

/-! ### The loops inside a state -/

/-- A loop inside a state that the end of the buffer stops. -/
def Exec.Cut (e : Exec σ) (at_ : List UInt8) : Prop :=
  match e.parser.state with
  | .headerField => ∃ after, fieldLoop at_ e.parser = some (.ended after)
  | .headerValue =>
    ∃ h after, valueLoop at_ none e.parser.headerState e.parser = some (.ended h after)
  | .bodyIdentity | .chunkData => at_.length < e.parser.contentLength
  | .bodyIdentityEof => True
  | _ => False

/-- An early return of a callback is an error. -/
theorem call_rejects {callback : Callback} (hok : e.parser.httpErrno = .ok) (hne : errno ≠ .ok) :
    Meets (fun r ↦ r.parser.httpErrno ≠ .ok) (fun after ↦ after.parser = e.parser)
      (e.call settings callback errno nparsed) := by
  unfold Exec.call
  rw [if_neg (not_not_intro hok)]
  simp only
  split_ifs
  · exact hne
  · rfl

theorem report_rejects {element : Element} {stop : List UInt8} (hok : e.parser.httpErrno = .ok) :
    Meets (fun r ↦ r.parser.httpErrno ≠ .ok) (fun after ↦ after.parser = e.parser)
      (e.report settings element stop nparsed) := by
  unfold Exec.report
  rw [if_neg (not_not_intro hok)]
  cases e.marks element with
  | none => rfl
  | some mark => exact (call_rejects hok element.errno_ne).bind fun _ hafter ↦ hafter

theorem headerField_extend [HeaderCounter] (he : e.SoundAt 1) (hs : e.parser.state = .headerField)
    (hcut : tail = [] ∨ ¬ e.Cut at_) :
    Follows (Completes len) (SameExit tail len') (fun next next' ↦ next = next'.extend tail)
      ((e.extend tail).headerField settings len (at_ ++ tail))
      (e.headerField settings len' at_) := by
  have hname := he.parser.fits
  rw [Parser.StateFits, hs] at hname
  obtain ⟨result, hloop, hresult⟩ := Parser.fieldLoop_sound at_ hname
  have hwhole := fieldLoop_append at_ tail e.parser
  rw [hloop] at hwhole
  unfold Exec.headerField
  cases result with
  | ended parser =>
    have hends : e.Cut at_ := by
      rw [Exec.Cut, hs]
      exact ⟨parser, hloop⟩
    obtain rfl := hcut.resolve_right (not_not_intro hends)
    have hsame : fieldLoop (at_ ++ []) (e.extend []).parser = some (.ended parser) := by
      rw [List.append_nil]
      exact hloop
    rw [hsame, hloop, List.append_nil]
    refine (countHeaderSize_extend (e := { e with parser := parser })).bind ?_
    rintro after after' rfl
    exact ⟨_, rfl, rfl⟩
  | stopped stop parser =>
    obtain ⟨c, rest, rfl⟩ := List.exists_cons_of_ne_nil hresult.2.2.1
    have hsame : fieldLoop (at_ ++ tail) (e.extend tail).parser =
        some (.stopped (c :: rest ++ tail) parser) := hwhole
    rw [hsame, hloop]
    simp only [List.length_append, Nat.add_sub_add_right]
    refine (countHeaderSize_extend (e := { e with parser := parser })).bind ?_
    rintro after after' rfl
    by_cases hcolon : some c = some 58
    · rw [List.cons_append, List.head?_cons, List.head?_cons, if_pos hcolon, if_pos hcolon]
      refine (report_extend (e := { after' with
        parser := { after'.parser with state := .headerValueDiscardWs } })
        (c :: rest)).bind ?_
      rintro last last' rfl
      exact ⟨_, rfl, rfl⟩
    · rw [List.cons_append, List.head?_cons, List.head?_cons, if_neg hcolon, if_neg hcolon]
      refine Rejected.follows (fail_rejected ?_)
      decide

theorem count_rejected [ExactCounter] {α : Type} {count : ℕ} {f : Exec σ → ParseM σ α}
    (hlong : maxHeaderSize < e.parser.nread + count) :
    Rejected (Completes len) (e.countHeaderSize count nparsed >>= f) := by
  unfold Exec.countHeaderSize
  simp only [ExactCounter.hold_eq]
  rw [if_pos hlong]
  exact fail_rejected (by decide)

/-- A header that is too long is an error, wherever its value ends. -/
theorem overflow_rejected [ExactCounter] {start : List UInt8} {result : ValueEnd} (he : e.SoundAt 1)
    (hs : e.parser.state = .headerValue)
    (hloop : valueLoop start none e.parser.headerState e.parser = some result)
    (hlong : maxHeaderSize + 1 < e.parser.nread + (start.length - result.rest.length)) :
    Rejected (Completes len) (e.headerValue settings len start) := by
  have hvalue := he.parser.fits
  rw [Parser.StateFits, hs] at hvalue
  obtain ⟨result', hloop', hresult⟩ := Parser.valueLoop_sound start none e.parser hvalue
  obtain rfl := Option.some.inj (hloop.symm.trans hloop')
  unfold Exec.headerValue
  rw [hloop]
  cases result with
  | failed at_ parser errno => exact fail_rejected hresult.1
  | ended h parser =>
    have hsame : parser.nread = e.parser.nread := valueLoop_nread hloop trivial
    change maxHeaderSize + 1 < e.parser.nread + (start.length - 0) at hlong
    refine count_rejected ?_
    change maxHeaderSize < parser.nread + (start.length - 1)
    omega
  | lineBreak at_ h parser =>
    have hsame : parser.nread = e.parser.nread := valueLoop_nread hloop hresult.2.2.1
    have hpos := List.length_pos_of_ne_nil hresult.2.2.1
    have hcount : maxHeaderSize < parser.nread + (start.length - at_.length) := by
      change maxHeaderSize + 1 < e.parser.nread + (start.length - at_.tail.length) at hlong
      rw [List.length_tail] at hlong
      omega
    simp only
    split_ifs
    · refine Meets.rejected (Meets.imp_return
        (report_rejects (by exact hresult.2.1.errno.trans he.errno)) ?_) ?_
      · exact fun _ hne hcompletes ↦ hne hcompletes.1
      · intro after hafter
        refine count_rejected ?_
        rw [hafter]
        exact hcount
    · exact count_rejected hcount

theorem headerValue_cases [ExactCounter] (settings : Callback → σ → ℕ × σ) (start : List UInt8)
    (he : e.SoundAt 1) (hs : e.parser.state = .headerValue) (hread : 1 ≤ e.parser.nread) :
    Rejected (Completes len) (e.headerValue settings len start) ∨
    ∃ result, result.Goes ∧ start.length - result.rest.length ≤ maxHeaderSize ∧
      valueLoop start none e.parser.headerState e.parser = some result := by
  have hvalue := he.parser.fits
  rw [Parser.StateFits, hs] at hvalue
  obtain ⟨result, hloop, hresult⟩ := Parser.valueLoop_sound start none e.parser hvalue
  rcases le_or_gt (start.length - result.rest.length) maxHeaderSize with hshort | hlong
  · cases result with
    | failed at_ parser errno =>
      refine Or.inl ?_
      unfold Exec.headerValue
      rw [hloop]
      exact fail_rejected hresult.1
    | lineBreak at_ h parser =>
      exact Or.inr ⟨.lineBreak at_ h parser, hresult.2.2.1, hshort, hloop⟩
    | ended h parser => exact Or.inr ⟨.ended h parser, trivial, hshort, hloop⟩
  · exact Or.inl (overflow_rejected he hs hloop (by omega))

/-- The rest of `case s_header_value` behind a line break. -/
theorem lineBreak_extend [HeaderCounter] {start stop : List UInt8} {h : HeaderState}
    {parser : Parser} (hstop : stop ≠ [])
    (hwhole : valueLoop (start ++ tail) none e.parser.headerState e.parser =
      some (.lineBreak (stop ++ tail) h parser))
    (hloop : valueLoop start none e.parser.headerState e.parser =
      some (.lineBreak stop h parser)) :
    Follows (Completes len) (SameExit tail len') (fun next next' ↦ next = next'.extend tail)
      ((e.extend tail).headerValue settings len (start ++ tail))
      (e.headerValue settings len' start) := by
  obtain ⟨c, rest, rfl⟩ := List.exists_cons_of_ne_nil hstop
  have hsame : valueLoop (start ++ tail) none (e.extend tail).parser.headerState
      (e.extend tail).parser = some (.lineBreak (c :: rest ++ tail) h parser) := hwhole
  have hcount : (start ++ tail).length - (c :: rest ++ tail).length =
      start.length - (c :: rest).length := by
    rw [List.length_append, List.length_append, Nat.add_sub_add_right]
  unfold Exec.headerValue
  rw [hsame, hloop]
  simp only [hcount]
  by_cases hcr : some c = some 13
  · rw [List.cons_append, List.head?_cons, List.head?_cons, if_pos hcr, if_pos hcr]
    refine (report_extend (e := { e with
      parser := { parser with state := .headerAlmostDone, headerState := h } })
      (c :: rest)).bind ?_
    rintro after after' rfl
    refine countHeaderSize_extend.bind ?_
    rintro last last' rfl
    exact ⟨_, rfl, rfl⟩
  · rw [List.cons_append, List.head?_cons, List.head?_cons, if_neg hcr, if_neg hcr]
    refine (countHeaderSize_extend (e := { e with
      parser := { parser with state := .headerAlmostDone } })).bind ?_
    rintro after after' rfl
    refine (report_extend (e := { after' with
      parser := { after'.parser with headerState := h } }) (c :: rest)).bind ?_
    rintro last last' rfl
    exact ⟨_, rfl, rfl⟩

/-- The loop over a value in the first part and in the whole: either the header is refused, or the
loop stops in the first part, or it goes on behind it. -/
theorem headerValue_parts [ExactCounter] (settings : Callback → σ → ℕ × σ) (at_ tail : List UInt8)
    (he : e.SoundAt 1) (hs : e.parser.state = .headerValue) (hread : 1 ≤ e.parser.nread) :
    Rejected (Completes len) ((e.extend tail).headerValue settings len (at_ ++ tail)) ∨
    (∃ stop h parser, stop ≠ [] ∧
      valueLoop (at_ ++ tail) none e.parser.headerState e.parser =
        some (.lineBreak (stop ++ tail) h parser) ∧
      valueLoop at_ none e.parser.headerState e.parser = some (.lineBreak stop h parser)) ∨
    ∃ h parser result, result.Goes ∧
      valueLoop (at_ ++ tail) none e.parser.headerState e.parser = some result ∧
      valueLoop at_ none e.parser.headerState e.parser = some (.ended h parser) ∧
      valueLoop tail none h parser = some result := by
  rcases headerValue_cases (e := e.extend tail) settings (at_ ++ tail) he.extend hs hread
    with hrejects | ⟨result, hgoes, hshort, hwhole⟩
  · exact Or.inl hrejects
  · have hscan := (valueLoop_eq_some_iff (fun hne ↦ absurd rfl hne) hshort).mp hwhole
    change valueLoop (at_ ++ tail) none e.parser.headerState e.parser = _ at hwhole
    change valueScan (at_ ++ tail) e.parser.headerState e.parser = _ at hscan
    rw [valueScan_append] at hscan
    cases hfirst : valueScan at_ e.parser.headerState e.parser with
    | none =>
      rw [hfirst] at hscan
      cases hscan
    | some first =>
      rw [hfirst] at hscan
      cases first with
      | failed stop parser errno =>
        cases hscan
        exact hgoes.elim
      | lineBreak stop h parser =>
        cases hscan
        have hstop := valueScan_stop_ne hfirst
        have hlooked : at_.length - (ValueEnd.lineBreak stop h parser).rest.length ≤
            maxHeaderSize := by
          change (at_ ++ tail).length - (stop ++ tail).tail.length ≤ maxHeaderSize at hshort
          change at_.length - stop.tail.length ≤ maxHeaderSize
          rw [List.length_tail] at hshort ⊢
          rw [List.length_append, List.length_append] at hshort
          have hpos := List.length_pos_of_ne_nil hstop
          omega
        exact Or.inr (Or.inl ⟨stop, h, parser, hstop, hwhole,
          (valueLoop_eq_some_iff (fun hne ↦ absurd rfl hne) hlooked).mpr hfirst⟩)
      | ended h parser =>
        have hrest := valueScan_rest_le hscan
        rw [List.length_append] at hshort
        have hlooked : at_.length - (ValueEnd.ended h parser).rest.length ≤ maxHeaderSize := by
          change at_.length - 0 ≤ maxHeaderSize
          omega
        have hlooked' : tail.length - result.rest.length ≤ maxHeaderSize := by omega
        exact Or.inr (Or.inr ⟨h, parser, result, hgoes, hwhole,
          (valueLoop_eq_some_iff (fun hne ↦ absurd rfl hne) hlooked).mpr hfirst,
          (valueLoop_eq_some_iff (fun hne ↦ absurd rfl hne) hlooked').mpr hscan⟩)

theorem headerValue_extend [ExactCounter] (he : e.SoundAt 1) (hs : e.parser.state = .headerValue)
    (hread : 1 ≤ e.parser.nread) (hcut : tail = [] ∨ ¬ e.Cut at_) :
    Follows (Completes len) (SameExit tail len') (fun next next' ↦ next = next'.extend tail)
      ((e.extend tail).headerValue settings len (at_ ++ tail))
      (e.headerValue settings len' at_) := by
  rcases headerValue_parts settings at_ tail he hs hread with
    hrejects | ⟨stop, h, parser, hstop, hwhole, hloop⟩ | ⟨h, parser, result, -, -, hloop, -⟩
  · exact hrejects.follows
  · exact lineBreak_extend hstop hwhole hloop
  · rcases hcut with rfl | hcut
    · have hsame : valueLoop (at_ ++ []) none (e.extend []).parser.headerState
          (e.extend []).parser = some (.ended h parser) := by
        rw [List.append_nil]
        exact hloop
      unfold Exec.headerValue
      rw [hsame, hloop, List.append_nil]
      refine (countHeaderSize_extend (e := { e with
        parser := { parser with headerState := h } })).bind ?_
      rintro after after' rfl
      exact ⟨_, rfl, rfl⟩
    · refine absurd ?_ hcut
      rw [Exec.Cut, hs]
      exact ⟨h, parser, hloop⟩

theorem drop_extend {count : ℕ} (hcount : count ≤ at_.length) :
    (at_ ++ tail).drop count = at_.drop count ++ tail :=
  List.drop_append_of_le_length hcount

/-! The states of the body, by whether the body ends in the buffer. -/

theorem bodyIdentity_done {ch : UInt8} (he : e.SoundAt 1) (hs : e.parser.state = .bodyIdentity)
    (hle : e.parser.contentLength ≤ at_.length) :
    e.bodyIdentity settings len at_ ch = ({ e.mark .body at_ with
      parser := { e.parser with contentLength := 0, state := .messageDone } }.report settings .body
        (at_.drop e.parser.contentLength) (offset len (at_.drop (e.parser.contentLength - 1))) >>=
      fun after ↦ .ok (.reexecute (at_.drop (e.parser.contentLength - 1)) ch after)) := by
  have hfits := he.parser.fits
  rw [Parser.StateFits, hs] at hfits
  have hpos := Nat.pos_of_ne_zero hfits.1
  unfold Exec.bodyIdentity Exec.assertLength
  simp only [if_pos hfits, ok_bind, Exec.mark_parser, min_eq_left hle, Nat.sub_self, if_true,
    List.tail_drop, Nat.sub_add_cancel hpos]
  rfl

theorem bodyIdentity_more {ch : UInt8} (he : e.SoundAt 1) (hs : e.parser.state = .bodyIdentity)
    (hlt : at_.length < e.parser.contentLength) :
    e.bodyIdentity settings len at_ ch = .ok (.advance [] { e.mark .body at_ with
      parser := { e.parser with contentLength := e.parser.contentLength - at_.length } }) := by
  have hfits := he.parser.fits
  rw [Parser.StateFits, hs] at hfits
  have hmore : ¬ e.parser.contentLength - at_.length = 0 := by omega
  unfold Exec.bodyIdentity Exec.assertLength
  simp only [if_pos hfits, ok_bind, Exec.mark_parser, min_eq_right hlt.le, if_neg hmore,
    List.drop_length]
  rfl

theorem chunkData_fits (he : e.SoundAt 1) (hs : e.parser.state = .chunkData) :
    ¬ e.parser.flags.chunked = false ∧
      e.parser.contentLength ≠ 0 ∧ e.parser.contentLength ≠ ullongMax := by
  have hfits := he.parser.fits
  rw [Parser.StateFits, hs] at hfits
  refine ⟨?_, hfits.2⟩
  rw [hfits.1]
  exact Bool.false_ne_true.symm

theorem chunkData_done (he : e.SoundAt 1) (hs : e.parser.state = .chunkData)
    (hle : e.parser.contentLength ≤ at_.length) :
    e.chunkData at_ = .ok (.advance (at_.drop e.parser.contentLength) { e.mark .body at_ with
      parser := { e.parser with contentLength := 0, state := .chunkDataAlmostDone } }) := by
  obtain ⟨hchunked, hlength⟩ := chunkData_fits he hs
  unfold Exec.chunkData Exec.assertLength
  simp only [if_neg hchunked, if_pos hlength, ok_bind, Exec.mark_parser, min_eq_left hle,
    Nat.sub_self, if_true]
  rfl

theorem chunkData_more (he : e.SoundAt 1) (hs : e.parser.state = .chunkData)
    (hlt : at_.length < e.parser.contentLength) :
    e.chunkData at_ = .ok (.advance [] { e.mark .body at_ with
      parser := { e.parser with contentLength := e.parser.contentLength - at_.length } }) := by
  obtain ⟨hchunked, hlength⟩ := chunkData_fits he hs
  have hmore : ¬ e.parser.contentLength - at_.length = 0 := by omega
  unfold Exec.chunkData Exec.assertLength
  simp only [if_neg hchunked, if_pos hlength, ok_bind, Exec.mark_parser, min_eq_right hlt.le,
    if_neg hmore, List.drop_length]
  rfl

theorem bodyIdentity_extend {ch : UInt8} (he : e.SoundAt 1) (hs : e.parser.state = .bodyIdentity)
    (hcut : tail = [] ∨ ¬ e.Cut at_) :
    Follows (Completes len) (SameExit tail len') (fun next next' ↦ next = next'.extend tail)
      ((e.extend tail).bodyIdentity settings len (at_ ++ tail) ch)
      (e.bodyIdentity settings len' at_ ch) := by
  rcases le_or_gt e.parser.contentLength at_.length with hle | hlt
  · have hle' : (e.extend tail).parser.contentLength ≤ (at_ ++ tail).length := by
      rw [List.length_append]
      exact hle.trans (Nat.le_add_right _ _)
    rw [bodyIdentity_done he hs hle, bodyIdentity_done he.extend hs hle', Exec.extend_mark]
    change Follows _ _ _ (Exec.report _ _ _ ((at_ ++ tail).drop e.parser.contentLength) _ >>= _) _
    rw [drop_extend hle]
    refine (report_extend (e := { e.mark .body at_ with
      parser := { e.parser with contentLength := 0, state := .messageDone } }) _).bind ?_
    rintro after after' rfl
    refine ⟨_, rfl, ?_⟩
    change Next.reexecute ((at_ ++ tail).drop (e.parser.contentLength - 1)) ch _ = _
    rw [drop_extend ((Nat.sub_le _ _).trans hle)]
    rfl
  · have hends : e.Cut at_ := by
      rw [Exec.Cut, hs]
      exact hlt
    obtain rfl := hcut.resolve_right (not_not_intro hends)
    rw [bodyIdentity_more he hs hlt, bodyIdentity_more he.extend hs
      (by rw [List.append_nil]; exact hlt), Exec.extend_mark, List.append_nil]
    exact ⟨_, rfl, rfl⟩

theorem chunkData_extend (he : e.SoundAt 1) (hs : e.parser.state = .chunkData)
    (hcut : tail = [] ∨ ¬ e.Cut at_) :
    Follows (Completes len) (SameExit tail len') (fun next next' ↦ next = next'.extend tail)
      ((e.extend tail).chunkData (at_ ++ tail)) (e.chunkData at_) := by
  rcases le_or_gt e.parser.contentLength at_.length with hle | hlt
  · have hle' : (e.extend tail).parser.contentLength ≤ (at_ ++ tail).length := by
      rw [List.length_append]
      exact hle.trans (Nat.le_add_right _ _)
    rw [chunkData_done he hs hle, chunkData_done he.extend hs hle', Exec.extend_mark]
    refine ⟨_, rfl, ?_⟩
    change Next.advance ((at_ ++ tail).drop e.parser.contentLength) _ = _
    rw [drop_extend hle]
    rfl
  · have hends : e.Cut at_ := by
      rw [Exec.Cut, hs]
      exact hlt
    obtain rfl := hcut.resolve_right (not_not_intro hends)
    rw [chunkData_more he hs hlt, chunkData_more he.extend hs
      (by rw [List.append_nil]; exact hlt), Exec.extend_mark, List.append_nil]
    exact ⟨_, rfl, rfl⟩

/-- One way through the `switch`, when no loop in it reaches the end of the first part. -/
theorem pass_extend [ExactCounter] {ch : UInt8} (he : e.SoundAt 1)
    (hread : e.parser.state = .headerValue → 1 ≤ e.parser.nread) (hcut : tail = [] ∨ ¬ e.Cut at_)
    (hne : at_ ≠ []) (hlen : at_.length ≤ len') (hlens : len = before + len' + tail.length) :
    Follows (Completes len) (SameExit tail len') (fun next next' ↦ next = next'.extend tail)
      ((e.extend tail).pass settings len (at_ ++ tail) ch) (e.pass settings len' at_ ch) := by
  cases hloop : e.parser.state.hasLoop with
  | false =>
    rw [pass_eq_perform hloop, pass_eq_perform (e := e.extend tail) hloop]
    refine perform_extend (e.parser.react ch) ?_ hne hlen hlens
    intro hfail
    have hsound : (e.parser.react ch).Sound e.parser := Parser.react_sound he.parser hloop
    have hflow := hsound.flow
    rw [hfail] at hflow
    exact hflow rfl
  | true =>
    unfold Exec.pass
    simp only [Exec.extend_parser]
    cases hs : e.parser.state with
    | headerField => exact headerField_extend he hs hcut
    | headerValue => exact headerValue_extend he hs (hread hs) hcut
    | bodyIdentity => exact bodyIdentity_extend he hs hcut
    | chunkData => exact chunkData_extend he hs hcut
    | bodyIdentityEof =>
      have hends : e.Cut at_ := by
        rw [Exec.Cut, hs]
        trivial
      obtain rfl := hcut.resolve_right (not_not_intro hends)
      refine ⟨_, rfl, ?_⟩
      rw [Exec.extend_mark]
      rfl
    | _ =>
      rw [hs] at hloop
      exact absurd hloop Bool.false_ne_true

/-! ### A loop that goes on behind the first part -/

/-- The same way through the `switch`, but for the byte that completes a message. -/
def SameNext (next next' : Next σ) : Prop :=
  next = next' ∨ ∃ at_ ch ch' e, next = .reexecute at_ ch e ∧ next' = .reexecute at_ ch' e ∧
    e.parser.state = .messageDone

/-- A way through the `switch` over the whole is refused, or the first part comes to its end in it
and the second part goes on from there. -/
def Resumed [HeaderCounter] (settings : Callback → σ → ℕ × σ) (len : ℕ) (tail : List UInt8)
    (c : UInt8) (whole part : ParseM σ (Next σ)) : Prop :=
  Rejected (Completes len) whole ∨ ∃ e' : Exec σ, part = .ok (.advance [] e') ∧
    Follows (Completes len) Eq SameNext whole
      ((e'.extend tail).countByte len tail >>= fun e'' ↦ e''.pass settings len tail c)

theorem follows_same {x y : ParseM σ (Next σ)} (heq : x = y) :
    Follows (Completes len) Eq SameNext x y := by
  rw [heq]
  exact (follows_refl y).imp fun _ _ hsame ↦ Or.inl hsame

/-- One count, or one in each part. -/
theorem count_split [ExactCounter] {p : Parser} {marks : Element → Option (List UInt8)} {user : σ}
    {count count' n : ℕ} {f : Exec σ → ParseM σ (Next σ)} (hsum : p.nread + count = n + count') :
    Follows (Completes len) Eq SameNext
      ((⟨p, marks, user⟩ : Exec σ).countHeaderSize count nparsed >>= f)
      ((⟨p.counting n, marks, user⟩ : Exec σ).countHeaderSize count' nparsed' >>= f) := by
  rcases le_or_gt (p.nread + count) maxHeaderSize with hle | hlong
  · rw [countHeaderSize_ok hle, countHeaderSize_ok (by exact hsum ▸ hle), ok_bind, ok_bind]
    exact follows_same (congrArg (fun m ↦ f ⟨p.counting m, marks, user⟩) hsum)
  · exact (count_rejected hlong).follows

theorem countByte_ok [HeaderCounter] (hparsing : e.parser.state.parsingHeader = true)
    (hle : e.parser.nread + 1 ≤ maxHeaderSize) :
    e.countByte len at_ = .ok { e with parser := e.parser.counting (e.parser.nread + 1) } := by
  unfold Exec.countByte
  rw [if_pos hparsing]
  exact countHeaderSize_ok hle

theorem headerField_cut [ExactCounter] (he : e.SoundAt 1) (hs : e.parser.state = .headerField)
    (hcut : e.Cut at_) (hne : at_ ≠ []) :
    Resumed settings len (c :: rest) c
      ((e.extend (c :: rest)).headerField settings len (at_ ++ c :: rest))
      (e.headerField settings len' at_) := by
  have hname := he.parser.fits
  rw [Parser.StateFits, hs] at hname
  rw [Exec.Cut, hs] at hcut
  obtain ⟨parser, hfirst⟩ := hcut
  obtain ⟨result, hfirst', hresult⟩ := Parser.fieldLoop_sound at_ hname
  obtain rfl := Option.some.inj (hfirst.symm.trans hfirst')
  obtain ⟨hkept, hname'⟩ := hresult
  obtain ⟨result, hsecond, hresult⟩ := Parser.fieldLoop_sound (c :: rest) hname'
  have hstate : parser.state = .headerField := hkept.state.trans hs
  have hwhole : fieldLoop (at_ ++ c :: rest) (e.extend (c :: rest)).parser = some result := by
    change fieldLoop (at_ ++ c :: rest) e.parser = _
    rw [fieldLoop_append, hfirst]
    exact hsecond
  have hpos := List.length_pos_of_ne_nil hne
  have hlength : (at_ ++ c :: rest).length = at_.length + (c :: rest).length := List.length_append
  -- the count behind the first part, and behind the byte that follows it
  rcases le_or_gt (parser.nread + at_.length) maxHeaderSize with hle | hlong
  · refine Or.inr ⟨{ e with parser := parser.counting (parser.nread + (at_.length - 1)) }, ?_, ?_⟩
    · unfold Exec.headerField
      rw [hfirst]
      simp only
      rw [countHeaderSize_ok]
      · rfl
      · change parser.nread + (at_.length - 1) ≤ maxHeaderSize
        omega
    · have hread : parser.nread + (at_.length - 1) + 1 ≤ maxHeaderSize := by omega
      have hloop := fieldLoop_counting (parser.nread + (at_.length - 1) + 1) (c :: rest) parser
      rw [hsecond] at hloop
      rw [countByte_ok (by exact congrArg ParserState.parsingHeader hstate) (by exact hread),
        ok_bind]
      have hpass (e'' : Exec σ) (hs : e''.parser.state = .headerField) :
          e''.pass settings len (c :: rest) c = e''.headerField settings len (c :: rest) := by
        unfold Exec.pass
        rw [hs]
      rw [hpass _ (by exact hstate)]
      change Follows _ _ _ _ (Exec.headerField settings len
        ⟨parser.counting (parser.nread + (at_.length - 1) + 1), _, _⟩ (c :: rest))
      unfold Exec.headerField
      rw [hwhole, hloop]
      cases result with
      | ended after =>
        have hread : after.nread = parser.nread := fieldLoop_nread hsecond
        simp only [Option.map_some, FieldEnd.counting]
        refine count_split ?_
        rw [hlength, List.length_cons]
        omega
      | stopped stop after =>
        have hread : after.nread = parser.nread := fieldLoop_nread hsecond
        have hle := hresult.2.2.2
        simp only [Option.map_some, FieldEnd.counting]
        refine count_split ?_
        rw [hlength]
        omega
  · refine Or.inl ?_
    unfold Exec.headerField
    rw [hwhole]
    cases result with
    | ended after =>
      have hread : after.nread = parser.nread := fieldLoop_nread hsecond
      refine count_rejected ?_
      change maxHeaderSize < after.nread + ((at_ ++ c :: rest).length - 1)
      rw [hlength, List.length_cons]
      omega
    | stopped stop after =>
      have hread : after.nread = parser.nread := fieldLoop_nread hsecond
      have hle := hresult.2.2.2
      refine count_rejected ?_
      change maxHeaderSize < after.nread + ((at_ ++ c :: rest).length - stop.length)
      rw [hlength]
      omega

/-- A report does not look at the count. -/
theorem report_counting (p : Parser) {marks : Element → Option (List UInt8)} {user : σ} {n : ℕ}
    {element : Element} {stop : List UInt8}
    (hcallback : ∀ content, element.callback (p.counting n) content = element.callback p content) :
    Follows (Completes len) Eq
      (fun after after' ↦ after.parser = p ∧ after' = { after with parser := p.counting n })
      ((⟨p, marks, user⟩ : Exec σ).report settings element stop nparsed)
      ((⟨p.counting n, marks, user⟩ : Exec σ).report settings element stop nparsed') := by
  unfold Exec.report
  by_cases hok : p.httpErrno = .ok
  · have hok' : (p.counting n).httpErrno = .ok := hok
    simp only [hok, hok', ne_eq, not_true_eq_false, if_false]
    cases marks element with
    | none => exact ⟨_, rfl, rfl, rfl⟩
    | some mark =>
      simp only [hcallback]
      refine (call_follows ⟨p, marks, user⟩ ⟨p.counting n, marks, user⟩ element.errno_ne rfl
        rfl).bind ?_
      rintro after after' ⟨hafter, hafter'⟩
      rw [hafter, hafter']
      exact ⟨_, rfl, rfl, rfl⟩
  · have hok' : (⟨p, marks, user⟩ : Exec σ).parser.httpErrno ≠ .ok := hok
    rw [if_pos hok']
    trivial

theorem headerValue_cut [ExactCounter] (he : e.SoundAt 1) (hs : e.parser.state = .headerValue)
    (hread : 1 ≤ e.parser.nread) (hcut : e.Cut at_) (hne : at_ ≠ []) :
    Resumed settings len (c :: rest) c
      ((e.extend (c :: rest)).headerValue settings len (at_ ++ c :: rest))
      (e.headerValue settings len' at_) := by
  rw [Exec.Cut, hs] at hcut
  obtain ⟨h, parser, hfirst⟩ := hcut
  rcases headerValue_parts settings at_ (c :: rest) he hs hread with hrejects |
    ⟨stop, h', parser', -, -, hloop⟩ | ⟨h', parser', result, hgoes, hwhole, hloop, hsecond⟩
  · exact Or.inl hrejects
  · cases hfirst.symm.trans hloop
  · cases hfirst.symm.trans hloop
    have hvalue := he.parser.fits
    rw [Parser.StateFits, hs] at hvalue
    obtain ⟨result', hfirst', hresult'⟩ := Parser.valueLoop_sound at_ none e.parser hvalue
    obtain rfl := Option.some.inj (hfirst.symm.trans hfirst')
    obtain ⟨hvalue', hkept⟩ := hresult'
    have hstate : parser.state = .headerValue := hkept.state.trans hs
    have hpos := List.length_pos_of_ne_nil hne
    have hlength : (at_ ++ c :: rest).length = at_.length + (c :: rest).length :=
      List.length_append
    have hwhole' : valueLoop (at_ ++ c :: rest) none (e.extend (c :: rest)).parser.headerState
        (e.extend (c :: rest)).parser = some result := hwhole
    obtain ⟨result', hsecond', hresult⟩ := Parser.valueLoop_sound (c :: rest) none parser hvalue'
    obtain rfl := Option.some.inj (hsecond.symm.trans hsecond')
    -- the count behind the first part, and behind the byte that follows it
    rcases le_or_gt (parser.nread + at_.length) maxHeaderSize with hle | hlong
    · refine Or.inr ⟨{ e with parser := { parser.counting (parser.nread + (at_.length - 1)) with
        headerState := h } }, ?_, ?_⟩
      · unfold Exec.headerValue
        rw [hfirst]
        simp only
        rw [countHeaderSize_ok]
        · rfl
        · change parser.nread + (at_.length - 1) ≤ maxHeaderSize
          omega
      · have hread : parser.nread + (at_.length - 1) + 1 ≤ maxHeaderSize := by omega
        rw [countByte_ok (by exact congrArg ParserState.parsingHeader hstate) (by exact hread),
          ok_bind]
        have hpass (e'' : Exec σ) (hs : e''.parser.state = .headerValue) :
            e''.pass settings len (c :: rest) c = e''.headerValue settings len (c :: rest) := by
          unfold Exec.pass
          rw [hs]
        rw [hpass _ (by exact hstate)]
        change Follows _ _ _ _ (Exec.headerValue settings len
          ⟨parser.storing (parser.nread + (at_.length - 1) + 1) h, _, _⟩ (c :: rest))
        have hstored : valueLoop (c :: rest) none
            (parser.storing (parser.nread + (at_.length - 1) + 1) h).headerState
            (parser.storing (parser.nread + (at_.length - 1) + 1) h) =
              some (result.storing (parser.nread + (at_.length - 1) + 1) h) :=
          valueLoop_storing (parser.nread + (at_.length - 1) + 1) h hgoes hsecond
        have hcount := valueLoop_nread hsecond hgoes
        unfold Exec.headerValue
        rw [hwhole', hstored]
        cases result with
        | failed stop after errno => exact hgoes.elim
        | ended h' after =>
          change after.nread = parser.nread at hcount
          refine count_split (p := { after with headerState := h' })
            (n := parser.nread + (at_.length - 1) + 1) ?_
          change after.nread + _ = _
          rw [hlength, List.length_cons]
          omega
        | lineBreak stop h' after =>
          change after.nread = parser.nread at hcount
          have hle := hresult.2.2.2
          have hsum : after.nread + ((at_ ++ c :: rest).length - stop.length) =
              parser.nread + (at_.length - 1) + 1 + ((c :: rest).length - stop.length) := by
            rw [hlength]
            omega
          simp only [ValueEnd.storing]
          by_cases hcr : stop.head? = some 13
          · rw [if_pos hcr, if_pos hcr]
            refine (report_counting { after with state := .headerAlmostDone, headerState := h' }
              (n := parser.nread + (at_.length - 1) + 1) fun _ ↦ rfl).bind ?_
            rintro ⟨_, marks, user⟩ last' ⟨rfl, rfl⟩
            exact count_split hsum
          · rw [if_neg hcr, if_neg hcr]
            rcases le_or_gt (after.nread + ((at_ ++ c :: rest).length - stop.length))
              maxHeaderSize with hshort | hlong
            · rw [countHeaderSize_ok (by exact hshort),
                countHeaderSize_ok (by exact hsum ▸ hshort), ok_bind, ok_bind]
              refine follows_same ?_
              exact congrArg (fun m ↦ Exec.report settings
                ⟨{ after with state := .headerAlmostDone, headerState := h', nread := m },
                  (e.extend (c :: rest)).marks, e.user⟩ .headerValue stop (offset len stop) >>=
                fun last ↦ .ok (Next.reexecute stop 10 last)) hsum
            · exact (count_rejected hlong).follows
    · refine Or.inl (overflow_rejected he.extend hs hwhole' ?_)
      have hrest := valueLoop_rest_le hsecond
      have hread := valueLoop_nread hfirst trivial
      change parser.nread = e.parser.nread at hread
      change _ < e.parser.nread + _
      rw [hlength]
      rw [List.length_cons] at hrest ⊢
      omega

/-! The body. -/

theorem mark_marked {element : Element} (hset : (e.marks element).isSome = true) :
    e.mark element at_ = e := by
  unfold Exec.mark
  rw [if_neg]
  rw [Option.isNone_iff_eq_none]
  intro hnone
  rw [hnone] at hset
  exact absurd hset Bool.false_ne_true

theorem isSome_mark (element : Element) (at_ : List UInt8) :
    ((e.mark element at_).marks element).isSome = true := by
  unfold Exec.mark
  split_ifs with hnone
  · simp only [Function.update_self, Option.isSome_some]
  · simpa only [Bool.not_eq_true, Option.isNone_eq_false_iff] using hnone

/-- What a part of a body leaves of the parser. -/
def Parser.taking (p : Parser) (count : ℕ) : Parser :=
  { p with contentLength := p.contentLength - count }

/-- In the middle of a body. -/
theorem Exec.SoundAt.taking (he : e.SoundAt 1)
    (hs : e.parser.state = .bodyIdentity ∨ e.parser.state = .chunkData)
    (hlt : at_.length < e.parser.contentLength) :
    ({ e.mark .body at_ with parser := e.parser.taking at_.length } : Exec σ).SoundAt 1 := by
  have hfits := he.parser.fits
  have hle := he.parser.length_le
  have hopen : e.parser.state.openable = some .body := by
    rcases hs with hs | hs <;> rw [hs] <;> rfl
  have hmarks := he.marks
  rw [hopen] at hmarks
  refine ⟨⟨?_, (Nat.sub_le _ _).trans hle⟩, he.errno, ?_⟩
  · have hstate : (e.parser.taking at_.length).state = e.parser.state := rfl
    have hlength : (e.parser.taking at_.length).contentLength =
        e.parser.contentLength - at_.length := rfl
    rcases hs with hs | hs
    · simp only [Parser.StateFits, hs] at hfits
      simp only [Parser.StateFits, hstate, hs, hlength]
      omega
    · simp only [Parser.StateFits, hs] at hfits
      simp only [Parser.StateFits, hstate, hs, hlength]
      exact ⟨hfits.1, by omega⟩
  · intro element hset
    exact hopen.trans (Exec.mark_markedFor at_ hmarks element hset)

theorem countByte_body [HeaderCounter] (hparsing : e.parser.state.parsingHeader = false) :
    e.countByte len at_ = .ok e :=
  if_neg (by rw [hparsing]; exact Bool.false_ne_true)

theorem drop_behind {count : ℕ} (hle : at_.length ≤ count) :
    (at_ ++ tail).drop count = tail.drop (count - at_.length) := by
  rw [List.drop_append, List.drop_eq_nil_of_le hle, List.nil_append]

/-- Behind the first part in the middle of a body, whose mark stays in the second part. -/
theorem exists_middle (tail : List UInt8) (he : e.SoundAt 1)
    (hs : e.parser.state = .bodyIdentity ∨ e.parser.state = .chunkData)
    (hlt : at_.length < e.parser.contentLength) :
    ∃ middle : Exec σ,
      middle = Exec.extend tail { e.mark .body at_ with parser := e.parser.taking at_.length } ∧
      middle.SoundAt 1 ∧ middle.mark .body tail = middle ∧
      middle.parser.state = e.parser.state ∧
      middle.parser.contentLength = e.parser.contentLength - at_.length := by
  refine ⟨_, rfl, (he.taking hs hlt).extend, mark_marked ?_, rfl, rfl⟩
  change (((e.mark .body at_).marks .body).map (· ++ tail)).isSome = true
  rw [Option.isSome_map]
  exact isSome_mark .body at_

theorem bodyIdentity_cut [HeaderCounter] (he : e.SoundAt 1) (hs : e.parser.state = .bodyIdentity)
    (hcut : e.Cut at_) :
    Resumed settings len (c :: rest) c
      ((e.extend (c :: rest)).bodyIdentity settings len (at_ ++ c :: rest) ch)
      (e.bodyIdentity settings len' at_ ch) := by
  rw [Exec.Cut, hs] at hcut
  refine Or.inr ⟨{ e.mark .body at_ with parser := e.parser.taking at_.length },
    bodyIdentity_more he hs hcut, ?_⟩
  obtain ⟨middle, hmiddle, hsound, hmark, hstate, hleft⟩ :=
    exists_middle (c :: rest) he (Or.inl hs) hcut
  rw [← hmiddle]
  rw [hs] at hstate
  have hlength : (at_ ++ c :: rest).length = at_.length + (c :: rest).length := List.length_append
  have hpass : middle.pass settings len (c :: rest) c =
      middle.bodyIdentity settings len (c :: rest) c := by
    unfold Exec.pass
    rw [hstate]
  rw [countByte_body (by rw [hstate]; rfl), ok_bind, hpass]
  rcases le_or_gt e.parser.contentLength (at_.length + (c :: rest).length) with hle | hlt
  · have hdrop : (at_ ++ c :: rest).drop e.parser.contentLength =
        (c :: rest).drop (e.parser.contentLength - at_.length) := drop_behind hcut.le
    have hlast : (at_ ++ c :: rest).drop (e.parser.contentLength - 1) =
        (c :: rest).drop (e.parser.contentLength - at_.length - 1) := by
      rw [drop_behind (Nat.le_sub_one_of_lt hcut), Nat.sub_right_comm]
    rw [bodyIdentity_done he.extend hs (by rw [hlength]; exact hle),
      bodyIdentity_done hsound hstate (by rw [hleft]; omega)]
    simp only [Exec.extend_parser, Exec.extend_mark, hmark, hleft, hdrop, hlast]
    have hsame : ({ (e.mark .body at_).extend (c :: rest) with
        parser := { e.parser with contentLength := 0, state := .messageDone } } : Exec σ) =
        { middle with
          parser := { middle.parser with contentLength := 0, state := .messageDone } } := by
      rw [hmiddle]
      rfl
    rw [hsame]
    refine ((follows_refl _).and_meets
      (report_meets (by exact hsound.errno) (offset_le len _))).bind ?_
    rintro after after' ⟨rfl, hafter, -⟩
    exact ⟨_, rfl, Or.inr ⟨_, ch, c, after, rfl, rfl, by rw [hafter]⟩⟩
  · rw [bodyIdentity_more he.extend hs (by rw [hlength]; exact hlt),
      bodyIdentity_more hsound hstate (by rw [hleft]; omega), Exec.extend_mark, hmark, hleft]
    refine follows_same ?_
    change Except.ok (Next.advance [] (⟨{ e.parser with
      contentLength := e.parser.contentLength - (at_ ++ c :: rest).length }, _, _⟩ : Exec σ)) = _
    rw [hlength, ← Nat.sub_sub, hmiddle]
    rfl

theorem chunkData_cut [HeaderCounter] (he : e.SoundAt 1) (hs : e.parser.state = .chunkData)
    (hcut : e.Cut at_) :
    Resumed settings len (c :: rest) c
      ((e.extend (c :: rest)).chunkData (at_ ++ c :: rest)) (e.chunkData at_) := by
  rw [Exec.Cut, hs] at hcut
  refine Or.inr ⟨{ e.mark .body at_ with parser := e.parser.taking at_.length },
    chunkData_more he hs hcut, ?_⟩
  obtain ⟨middle, hmiddle, hsound, hmark, hstate, hleft⟩ :=
    exists_middle (c :: rest) he (Or.inr hs) hcut
  rw [← hmiddle]
  rw [hs] at hstate
  have hlength : (at_ ++ c :: rest).length = at_.length + (c :: rest).length := List.length_append
  have hpass : middle.pass settings len (c :: rest) c = middle.chunkData (c :: rest) := by
    unfold Exec.pass
    rw [hstate]
  rw [countByte_body (by rw [hstate]; rfl), ok_bind, hpass]
  refine follows_same ?_
  rcases le_or_gt e.parser.contentLength (at_.length + (c :: rest).length) with hle | hlt
  · have hdrop : (at_ ++ c :: rest).drop e.parser.contentLength =
        (c :: rest).drop (e.parser.contentLength - at_.length) := drop_behind hcut.le
    rw [chunkData_done he.extend hs (by rw [hlength]; exact hle),
      chunkData_done hsound hstate (by rw [hleft]; omega)]
    simp only [Exec.extend_parser, Exec.extend_mark, hmark, hleft, hdrop]
    rw [hmiddle]
    rfl
  · rw [chunkData_more he.extend hs (by rw [hlength]; exact hlt),
      chunkData_more hsound hstate (by rw [hleft]; omega)]
    simp only [Exec.extend_parser, Exec.extend_mark, hmark, hleft, hlength, ← Nat.sub_sub]
    rw [hmiddle]
    rfl

/-- The end of the first part in a loop inside a state. -/
theorem pass_cut [ExactCounter] (ch : UInt8) (he : e.SoundAt 1)
    (hread : e.parser.state = .headerValue → 1 ≤ e.parser.nread)
    (hcut : e.Cut at_) (hne : at_ ≠ []) :
    Resumed settings len (c :: rest) c
      ((e.extend (c :: rest)).pass settings len (at_ ++ c :: rest) ch)
      (e.pass settings len' at_ ch) := by
  unfold Exec.pass
  simp only [Exec.extend_parser]
  cases hs : e.parser.state with
  | headerField => exact headerField_cut he hs hcut hne
  | headerValue => exact headerValue_cut he hs (hread hs) hcut hne
  | bodyIdentity => exact bodyIdentity_cut he hs hcut
  | chunkData => exact chunkData_cut he hs hcut
  | bodyIdentityEof =>
    refine Or.inr ⟨e.mark .body at_, rfl, ?_⟩
    have hstate : ((e.mark .body at_).extend (c :: rest)).parser.state = .bodyIdentityEof := by
      rw [Exec.extend_parser, Exec.mark_parser, hs]
    have hpass : ((e.mark .body at_).extend (c :: rest)).pass settings len (c :: rest) c =
        .ok (.advance [] (((e.mark .body at_).extend (c :: rest)).mark .body (c :: rest))) := by
      unfold Exec.pass
      rw [hstate]
    have hmark : ((e.mark .body at_).extend (c :: rest)).mark .body (c :: rest) =
        (e.mark .body at_).extend (c :: rest) := by
      refine mark_marked ?_
      change (((e.mark .body at_).marks .body).map (· ++ c :: rest)).isSome = true
      rw [Option.isSome_map]
      exact isSome_mark .body at_
    rw [countByte_body (by rw [hstate]; rfl), ok_bind, hpass, hmark]
    exact follows_same (congrArg (fun e' ↦ Except.ok (Next.advance [] e'))
      (Exec.extend_mark .body at_))
  | _ =>
    rw [Exec.Cut, hs] at hcut
    exact hcut.elim

end Executing

end Cczoe.Http
