import Cczoe.Http.ParserInvariant

/-!
# The vendored parser never fails an assertion

The invariant of the fields goes through the macros of a state (`acts_meets`), a way through the
`switch` (`pass_meets`), all ways for one byte (`passes_meets`), the loop over a buffer
(`loop_meets`) and a call (`executeBody_meets`).

From this every call returns, on every sequence of buffers and with every callback
(`httpParserExecute_returns`): no assertion fails, a content length stays below sixty-four bits, and
a call that takes less than its buffer has left an error or an upgrade behind.
-/

set_option autoImplicit false
set_option relaxedAutoImplicit false

namespace Cczoe.Http

open Foundations

/-! ### A way through the `switch` keeps it -/

/-- What a call leaves in an early return. -/
structure Returned.Sound {σ : Type} (len : ℕ) (r : Returned σ) : Prop where
  nparsed_le : r.nparsed ≤ len
  parser : r.parser.httpErrno = .ok →
    r.parser.SoundAt 0 ∧ (r.nparsed < len → r.parser.upgrade = true)

/-- The marks that are set, when one element may be open. -/
def Exec.MarkedFor {σ : Type} (e : Exec σ) (opened : Option Element) : Prop :=
  ∀ element, e.marks element ≠ none → opened = some element

/-- The invariant of a run over a buffer. -/
structure Exec.SoundAt {σ : Type} (counted : ℕ) (e : Exec σ) : Prop where
  parser : e.parser.SoundAt counted
  errno : e.parser.httpErrno = .ok
  marks : e.MarkedFor e.parser.state.openable

/-- The end of one way through the `switch` at a pointer, in a state of a rank. -/
def Next.Sound {σ : Type} (at_ : List UInt8) (rank : ℕ) : Next σ → Prop
  | .advance rest e => e.SoundAt 0 ∧ rest.length < at_.length
  | .reexecute at_' _ e =>
    e.SoundAt 1 ∧ e.parser.state.rank < rank ∧ at_' ≠ [] ∧ at_'.length ≤ at_.length

section Executing

variable {σ α : Type} {settings : Callback → σ → ℕ × σ} {len nparsed : ℕ} {e : Exec σ}
  {onValue : α → Prop} {errno : HttpErrno}

theorem fail_meets (hne : errno ≠ .ok) (hle : nparsed ≤ len) :
    Meets (Returned.Sound len) onValue (e.fail errno nparsed) :=
  ⟨hle, fun hok ↦ absurd hok hne⟩

theorem call_meets {callback : Callback} (hok : e.parser.httpErrno = .ok) (hne : errno ≠ .ok)
    (hle : nparsed ≤ len) :
    Meets (Returned.Sound len) (fun e' ↦ e'.parser = e.parser ∧ e'.marks = e.marks)
      (e.call settings callback errno nparsed) := by
  unfold Exec.call
  rw [if_neg (not_not_intro hok)]
  simp only
  split_ifs
  · exact fail_meets hne hle
  · exact ⟨rfl, rfl⟩

theorem Element.errno_ne (element : Element) : element.errno ≠ .ok := by
  cases element <;> exact nofun

theorem Notification.errno_ne (notification : Notification) : notification.errno ≠ .ok := by
  cases notification <;> exact nofun

/-- A report closes its element and leaves the others. -/
theorem report_meets {element : Element} {stop : List UInt8} (hok : e.parser.httpErrno = .ok)
    (hle : nparsed ≤ len) :
    Meets (Returned.Sound len)
      (fun e' ↦ e'.parser = e.parser ∧
        ∀ other, e'.marks other ≠ none → other ≠ element ∧ e.marks other ≠ none)
      (e.report settings element stop nparsed) := by
  unfold Exec.report
  rw [if_neg (not_not_intro hok)]
  cases hmark : e.marks element with
  | none =>
    refine ⟨rfl, fun other hother ↦ ⟨?_, hother⟩⟩
    rintro rfl
    exact hother hmark
  | some mark =>
    refine (call_meets hok element.errno_ne hle).bind ?_
    rintro e' ⟨hparser, hmarks⟩
    refine ⟨hparser, fun other hother ↦ ?_⟩
    by_cases heq : other = element
    · subst heq
      exact absurd (Function.update_self _ _ _) hother
    · refine ⟨heq, ?_⟩
      rw [← hmarks]
      simpa [Function.update_of_ne heq] using hother

theorem countHeaderSize_meets [HeaderCounter] {count : ℕ} (hle : nparsed ≤ len) :
    Meets (Returned.Sound len)
      (fun e' ↦ e' = { e with
        parser := { e.parser with nread := HeaderCounter.hold (e.parser.nread + count) } })
      (e.countHeaderSize count nparsed) := by
  unfold Exec.countHeaderSize
  simp only
  split_ifs
  · exact fail_meets nofun hle
  · rfl

/-- What the macros of a state may change of the parser. -/
structure Parser.Acted (before after : Parser) : Prop where
  state : after.state = before.state
  errno : after.httpErrno = before.httpErrno
  upgrade : before.upgrade = true → after.upgrade = true
  sound : ∀ counted, before.SoundAt counted → after.SoundAt counted

theorem Parser.Acted.refl (p : Parser) : p.Acted p := ⟨rfl, rfl, id, fun _ ↦ id⟩

theorem Parser.Acted.trans {first second third : Parser} (hfirst : first.Acted second)
    (hsecond : second.Acted third) : first.Acted third :=
  ⟨hsecond.state.trans hfirst.state, hsecond.errno.trans hfirst.errno,
    hsecond.upgrade ∘ hfirst.upgrade, fun counted ↦ hsecond.sound counted ∘ hfirst.sound counted⟩

/-- No condition on the fields is about the flag of a skipped body. -/
theorem Parser.SoundAt.skipBody {p : Parser} {counted : ℕ} {upgrade : Bool}
    (hp : p.SoundAt counted) :
    ({ p with flags := { p.flags with skipbody := true }, upgrade := upgrade } :
      Parser).SoundAt counted := by
  refine ⟨?_, hp.length_le⟩
  have hfits := hp.fits
  unfold Parser.StateFits at hfits ⊢
  exact hfits

theorem headersComplete_meets (hle : nparsed ≤ len) :
    Meets (Returned.Sound len) (fun e' ↦ e.parser.Acted e'.parser ∧ e'.marks = e.marks)
      (e.headersComplete settings nparsed) := by
  unfold Exec.headersComplete
  simp only
  split
  · exact ⟨.refl _, rfl⟩
  · exact ⟨⟨rfl, rfl, id, fun _ ↦ Parser.SoundAt.skipBody⟩, rfl⟩
  · exact ⟨⟨rfl, rfl, fun _ ↦ rfl, fun _ ↦ Parser.SoundAt.skipBody⟩, rfl⟩
  · exact fail_meets nofun hle

theorem offset_le (len : ℕ) (at_ : List UInt8) : offset len at_ ≤ len := Nat.sub_le _ _

theorem offset_succ_le {at_ : List UInt8} (hne : at_ ≠ []) (hlen : at_.length ≤ len) :
    offset len at_ + 1 ≤ len := by
  have hpos := List.length_pos_of_ne_nil hne
  unfold offset
  omega

theorem offset_add_le {at_ : List UInt8} (hne : at_ ≠ []) (hlen : at_.length ≤ len)
    (consume : Bool) : offset len at_ + (if consume then 1 else 0) ≤ len := by
  split_ifs
  · exact offset_succ_le hne hlen
  · exact offset_le len at_

/-- The macros of a state run, whatever is open. -/
theorem acts_meets {acts : List Act} {at_ : List UInt8} (opened after : Option Element)
    (hne : at_ ≠ []) (hlen : at_.length ≤ len) :
    ∀ {e : Exec σ}, e.parser.httpErrno = .ok →
      Meets (Returned.Sound len)
        (fun e' ↦ e.parser.Acted e'.parser ∧
          (e.MarkedFor opened → actsFit opened acts after → e'.MarkedFor after))
        (acts.foldlM (fun e act ↦ e.act settings len at_ act) e) := by
  induction acts generalizing opened with
  | nil =>
    refine fun {e} _ ↦ ⟨.refl _, fun hmarked hfit element hset ↦ ?_⟩
    rcases hfit with hnone | heq
    · have := hmarked element hset
      rw [hnone] at this
      exact absurd this nofun
    · rw [← heq]
      exact hmarked element hset
  | cons act acts ih =>
    intro e hok
    rw [List.foldlM_cons]
    cases act with
    | mark element =>
      change Meets _ _ (acts.foldlM _ (e.mark element at_))
      have hparser : (e.mark element at_).parser = e.parser := by
        unfold Exec.mark
        split_ifs <;> rfl
      refine (ih (some element) (by rw [hparser]; exact hok)).imp ?_
      rintro e' ⟨hacted, hmarks⟩
      rw [hparser] at hacted
      refine ⟨hacted, fun hmarked hfit ↦ hmarks ?_ hfit.2⟩
      intro other hset
      by_cases heq : other = element
      · rw [heq]
      · have hother : e.marks other ≠ none := by
          unfold Exec.mark at hset
          split_ifs at hset
          · simpa [Function.update_of_ne heq] using hset
          · exact hset
        have hopen := hmarked other hother
        rcases hfit.1 with hnone | hsame
        · rw [hnone] at hopen
          exact absurd hopen nofun
        · rw [← hopen, hsame]
    | data element consume =>
      refine (report_meets hok (offset_add_le hne hlen consume)).bind ?_
      rintro e' ⟨hparser, hothers⟩
      refine (ih none (by rw [hparser]; exact hok)).imp ?_
      rintro e'' ⟨hacted, hmarks⟩
      rw [hparser] at hacted
      refine ⟨hacted, fun hmarked hfit ↦ hmarks ?_ hfit.2⟩
      intro other hset
      obtain ⟨hother, hbefore⟩ := hothers other hset
      have hopen := hmarked other hbefore
      rcases hfit.1 with hnone | hsame
      · rw [← hopen, hnone]
      · rw [hsame] at hopen
        exact absurd (Option.some.inj hopen).symm hother
    | notify notification consume =>
      refine (call_meets hok notification.errno_ne (offset_add_le hne hlen consume)).bind ?_
      rintro e' ⟨hparser, hsame⟩
      refine (ih none (by rw [hparser]; exact hok)).imp ?_
      rintro e'' ⟨hacted, hmarks⟩
      rw [hparser] at hacted
      refine ⟨hacted, fun hmarked hfit ↦ hmarks ?_ hfit.2⟩
      intro other hset
      rw [hsame] at hset
      rw [← hmarked other hset, hfit.1]
    | headersComplete =>
      refine (headersComplete_meets (offset_le len at_)).bind ?_
      rintro e' ⟨hparser, hsame⟩
      refine (ih none (by rw [hparser.errno]; exact hok)).imp ?_
      rintro e'' ⟨hacted, hmarks⟩
      refine ⟨hparser.trans hacted, fun hmarked hfit ↦ hmarks ?_ hfit.2⟩
      intro other hset
      rw [hsame] at hset
      rw [← hmarked other hset, hfit.1]

/-- A state without a loop of its own. -/
theorem perform_meets {at_ : List UInt8} {ch : UInt8} {reaction : Reaction} (hne : at_ ≠ [])
    (hlen : at_.length ≤ len) (he : e.SoundAt 1) (hreaction : reaction.Sound e.parser) :
    Meets (Returned.Sound len) (Next.Sound at_ e.parser.state.rank)
      (e.perform settings len at_ ch reaction) := by
  unfold Exec.perform
  refine (acts_meets e.parser.state.openable reaction.parser.state.openable hne hlen
    (by rw [hreaction.errno]; exact he.errno)).bind ?_
  rintro e' ⟨hacted, hmarks⟩
  have hok : e'.parser.httpErrno = .ok := by rw [hacted.errno, hreaction.errno, he.errno]
  have hstate := hacted.state
  have hflow := hreaction.flow
  cases hcase : reaction.flow with
  | next =>
    rw [hcase] at hflow
    refine ⟨⟨hacted.sound 0 hflow.1, hok, ?_⟩, ?_⟩
    · rw [hstate]
      exact hmarks he.marks hflow.2
    · have hpos := List.length_pos_of_ne_nil hne
      rw [List.length_tail]
      omega
  | reexecute =>
    rw [hcase] at hflow
    refine ⟨⟨hacted.sound 1 hflow.1, hok, ?_⟩, ?_, hne, le_rfl⟩
    · rw [hstate]
      exact hmarks he.marks hflow.2.1
    · rw [hstate]
      exact hflow.2.2
  | fail errno =>
    rw [hcase] at hflow
    exact fail_meets hflow (offset_le len at_)
  | exit =>
    rw [hcase] at hflow
    exact ⟨offset_succ_le hne hlen, fun _ ↦
      ⟨hacted.sound 0 hflow.1, fun _ ↦ hacted.upgrade hflow.2⟩⟩
  | assertion =>
    rw [hcase] at hflow
    exact hflow.elim

theorem Parser.SoundAt.nread {p : Parser} {counted counted' n : ℕ} (hp : p.SoundAt counted)
    (hstate : p.state ≠ .chunkSizeStart) : ({ p with nread := n } : Parser).SoundAt counted' := by
  refine ⟨?_, hp.length_le⟩
  have hfits := hp.fits
  unfold Parser.StateFits at hfits ⊢
  split at hfits <;> simp_all

/-- Behind a loop that ends with the buffer, the same element is open. -/
theorem Exec.SoundAt.looped {e' : Exec σ} (he : e.SoundAt 1)
    (hstate : e'.parser.state = e.parser.state) (hmarks : e'.marks = e.marks)
    (hp : e'.parser.SoundAt 0) (hok : e'.parser.httpErrno = .ok) : e'.SoundAt 0 := by
  refine ⟨hp, hok, ?_⟩
  unfold Exec.MarkedFor
  rw [hstate, hmarks]
  exact he.marks

theorem headerField_meets [HeaderCounter] {at_ : List UInt8} (hne : at_ ≠ [])
    (hlen : at_.length ≤ len) (he : e.SoundAt 1) (hs : e.parser.state = .headerField) :
    Meets (Returned.Sound len) (Next.Sound at_ e.parser.state.rank)
      (e.headerField settings len at_) := by
  have hname : e.parser.headerState.inName = true := by
    have hfits := he.parser.fits
    rwa [Parser.StateFits, hs] at hfits
  have hpos := List.length_pos_of_ne_nil hne
  obtain ⟨result, hloop, hresult⟩ := Parser.fieldLoop_sound at_ hname
  unfold Exec.headerField
  rw [hloop]
  cases result with
  | ended after =>
    obtain ⟨hkept, hinName⟩ := hresult
    have hstate : after.state = .headerField := hkept.state.trans hs
    refine (countHeaderSize_meets (Nat.sub_le _ _)).bind ?_
    rintro e' rfl
    refine ⟨he.looped hkept.state rfl ?_ (hkept.errno.trans he.errno), hpos⟩
    have hafter : after.SoundAt 0 := by
      refine ⟨?_, hkept.length_le he.parser.length_le⟩
      rw [Parser.StateFits, hstate]
      exact hinName
    refine hafter.nread ?_
    rw [hstate]
    decide
  | stopped stop after =>
    obtain ⟨hkept, hinName, hstop, hle⟩ := hresult
    refine (countHeaderSize_meets (offset_le len stop)).bind ?_
    rintro e' rfl
    split_ifs
    · refine (report_meets (hkept.errno.trans he.errno)
        (offset_succ_le hstop (hle.trans hlen))).bind ?_
      rintro e' ⟨hparser, hothers⟩
      have hstop' := List.length_pos_of_ne_nil hstop
      refine ⟨⟨?_, ?_, ?_⟩, ?_⟩
      · rw [hparser]
        exact ⟨trivial, hkept.length_le he.parser.length_le⟩
      · rw [hparser]
        exact hkept.errno.trans he.errno
      · intro other hset
        obtain ⟨hother, hbefore⟩ := hothers other hset
        have hopen := he.marks other hbefore
        rw [hs] at hopen
        exact absurd (Option.some.inj hopen).symm hother
      · rw [List.length_tail]
        omega
    · exact fail_meets (by decide) (offset_le len stop)

theorem headerValue_meets [HeaderCounter] {at_ : List UInt8} (hne : at_ ≠ [])
    (hlen : at_.length ≤ len) (he : e.SoundAt 1) (hs : e.parser.state = .headerValue) :
    Meets (Returned.Sound len) (Next.Sound at_ e.parser.state.rank)
      (e.headerValue settings len at_) := by
  have hvalue : e.parser.headerState.inValue = true := by
    have hfits := he.parser.fits
    rwa [Parser.StateFits, hs] at hfits
  have hpos := List.length_pos_of_ne_nil hne
  obtain ⟨result, hloop, hresult⟩ :=
    Parser.valueLoop_sound at_ none e.parser hvalue
  -- behind a report no element is open any more
  have hclosed {marks : Element → Option (List UInt8)}
      (hothers : ∀ other, marks other ≠ none → other ≠ .headerValue ∧ e.marks other ≠ none)
      {opened : Option Element} (other : Element) (hset : marks other ≠ none) :
      opened = some other := by
    obtain ⟨hother, hbefore⟩ := hothers other hset
    have hopen := he.marks other hbefore
    rw [hs] at hopen
    exact absurd (Option.some.inj hopen).symm hother
  unfold Exec.headerValue
  rw [hloop]
  cases result with
  | ended h after =>
    obtain ⟨hinValue, hkept⟩ := hresult
    have hstate : after.state = .headerValue := hkept.state.trans hs
    refine (countHeaderSize_meets (Nat.sub_le _ _)).bind ?_
    rintro e' rfl
    refine ⟨he.looped hkept.state rfl ?_ (hkept.errno.trans he.errno), hpos⟩
    refine ⟨?_, hkept.length_le he.parser.length_le⟩
    simpa only [Parser.StateFits, hstate] using hinValue
  | failed stop after errno => exact fail_meets hresult.1 (offset_le len stop)
  | lineBreak stop h after =>
    obtain ⟨hinValue, hkept, hstop, hle⟩ := hresult
    have hstop' := List.length_pos_of_ne_nil hstop
    have hok := hkept.errno.trans he.errno
    have hlength := hkept.length_le he.parser.length_le
    simp only
    split_ifs
    · refine (report_meets hok (offset_succ_le hstop (hle.trans hlen))).bind ?_
      rintro e' ⟨hparser, hothers⟩
      refine (countHeaderSize_meets (offset_le len stop)).bind ?_
      rintro e'' rfl
      refine ⟨⟨?_, ?_, fun other hset ↦ hclosed hothers other hset⟩, ?_⟩
      · simp only [hparser]
        exact ⟨trivial, hlength⟩
      · simp only [hparser]
        exact hok
      · rw [List.length_tail]
        omega
    · refine (countHeaderSize_meets (offset_le len stop)).bind ?_
      rintro e' rfl
      refine (report_meets hok (offset_le len stop)).bind ?_
      rintro e'' ⟨hparser, hothers⟩
      refine ⟨⟨?_, ?_, fun other hset ↦ hclosed hothers other hset⟩, ?_, hstop, hle⟩
      · rw [hparser]
        exact ⟨trivial, hlength⟩
      · rw [hparser]
        exact hok
      · rw [hparser, hs]
        exact Nat.one_lt_two

theorem Exec.mark_parser (element : Element) (at_ : List UInt8) :
    (e.mark element at_).parser = e.parser := by
  unfold Exec.mark
  split_ifs <;> rfl

/-- A mark that is set to begin with, or for the element that may be open. -/
theorem Exec.mark_markedFor (at_ : List UInt8) {element : Element}
    (hmarked : e.MarkedFor (some element)) : (e.mark element at_).MarkedFor (some element) := by
  intro other hset
  by_cases heq : other = element
  · rw [heq]
  · unfold Exec.mark at hset
    split_ifs at hset
    · exact hmarked other (by simpa [Function.update_of_ne heq] using hset)
    · exact hmarked other hset

theorem bodyIdentity_meets {at_ : List UInt8} {ch : UInt8} (hne : at_ ≠ [])
    (he : e.SoundAt 1) (hs : e.parser.state = .bodyIdentity) :
    Meets (Returned.Sound len) (Next.Sound at_ e.parser.state.rank)
      (e.bodyIdentity settings len at_ ch) := by
  have hfits := he.parser.fits
  rw [Parser.StateFits, hs] at hfits
  have hmarked : e.MarkedFor (some .body) := by
    have := he.marks
    rwa [hs] at this
  have hpos := List.length_pos_of_ne_nil hne
  have hlength := he.parser.length_le
  unfold Exec.bodyIdentity Exec.assertLength
  simp only [if_pos hfits, ok_bind, Exec.mark_parser]
  set toRead := min e.parser.contentLength at_.length with hread
  have hread_pos : 0 < toRead := lt_min (Nat.pos_of_ne_zero hfits.1) hpos
  have hread_le : toRead ≤ at_.length := min_le_right _ _
  have hlast : (at_.drop (toRead - 1)).length = at_.length - (toRead - 1) := List.length_drop
  split_ifs with hleft
  · refine (report_meets (by exact he.errno) (offset_le len _)).bind ?_
    rintro e' ⟨hparser, hothers⟩
    refine ⟨⟨?_, ?_, ?_⟩, ?_, ?_, ?_⟩
    · rw [hparser]
      exact ⟨trivial, (Nat.sub_le _ _).trans hlength⟩
    · rw [hparser]
      exact he.errno
    · intro other hset
      obtain ⟨hother, hbefore⟩ := hothers other hset
      have hopen := Exec.mark_markedFor at_ hmarked other hbefore
      exact absurd (Option.some.inj hopen).symm hother
    · rw [hparser, hs]
      exact Nat.one_lt_two
    · exact List.ne_nil_of_length_pos (by omega)
    · omega
  · refine ⟨⟨⟨?_, (Nat.sub_le _ _).trans hlength⟩, he.errno, ?_⟩, ?_⟩
    · have hfull := hfits.2
      simp only [Parser.StateFits, hs]
      exact ⟨hleft, by omega⟩
    · intro other hset
      rw [show (_ : Parser).state = .bodyIdentity from hs]
      exact Exec.mark_markedFor at_ hmarked other hset
    · rw [List.length_drop]
      omega

theorem chunkData_meets {at_ : List UInt8} (hne : at_ ≠ []) (he : e.SoundAt 1)
    (hs : e.parser.state = .chunkData) :
    Meets (Returned.Sound len) (Next.Sound at_ e.parser.state.rank) (e.chunkData at_) := by
  have hfits := he.parser.fits
  rw [Parser.StateFits, hs] at hfits
  have hmarked : e.MarkedFor (some .body) := by
    have := he.marks
    rwa [hs] at this
  have hpos := List.length_pos_of_ne_nil hne
  have hlength := he.parser.length_le
  have hchunked : ¬ e.parser.flags.chunked = false := by
    rw [hfits.1]
    exact Bool.false_ne_true.symm
  unfold Exec.chunkData Exec.assertLength
  simp only [if_neg hchunked, if_pos hfits.2, ok_bind, Exec.mark_parser]
  set toRead := min e.parser.contentLength at_.length with hread
  have hread_pos : 0 < toRead := lt_min (Nat.pos_of_ne_zero hfits.2.1) hpos
  have hread_le : toRead ≤ at_.length := min_le_right _ _
  have hdrop : (at_.drop toRead).length < at_.length := by
    rw [List.length_drop]
    omega
  split_ifs with hleft
  · exact ⟨⟨⟨⟨hfits.1, hleft⟩, (Nat.sub_le _ _).trans hlength⟩, he.errno,
      Exec.mark_markedFor at_ hmarked⟩, hdrop⟩
  · refine ⟨⟨⟨?_, (Nat.sub_le _ _).trans hlength⟩, he.errno, ?_⟩, hdrop⟩
    · have hfull := hfits.2.2
      simp only [Parser.StateFits, hs]
      exact ⟨hfits.1, hleft, by omega⟩
    · intro other hset
      rw [show (_ : Parser).state = .chunkData from hs]
      exact Exec.mark_markedFor at_ hmarked other hset

theorem bodyIdentityEof_sound {at_ : List UInt8} (hne : at_ ≠ []) (he : e.SoundAt 1)
    (hs : e.parser.state = .bodyIdentityEof) :
    (Next.advance [] (e.mark .body at_)).Sound at_ e.parser.state.rank := by
  have hmarked : e.MarkedFor (some .body) := by
    have := he.marks
    rwa [hs] at this
  refine ⟨⟨?_, ?_, ?_⟩, List.length_pos_of_ne_nil hne⟩
  · rw [Exec.mark_parser]
    refine ⟨?_, he.parser.length_le⟩
    rw [Parser.StateFits, hs]
    trivial
  · rw [Exec.mark_parser]
    exact he.errno
  · rw [Exec.mark_parser, hs]
    exact Exec.mark_markedFor at_ hmarked

/-- Every way through the `switch` keeps the invariant. -/
theorem pass_meets [HeaderCounter] {at_ : List UInt8} {ch : UInt8} (hne : at_ ≠ [])
    (hlen : at_.length ≤ len) (he : e.SoundAt 1) :
    Meets (Returned.Sound len) (Next.Sound at_ e.parser.state.rank)
      (e.pass settings len at_ ch) := by
  unfold Exec.pass
  split
  case h_1 hs => exact headerField_meets hne hlen he hs
  case h_2 hs => exact headerValue_meets hne hlen he hs
  case h_3 hs => exact bodyIdentity_meets hne he hs
  case h_4 hs => exact bodyIdentityEof_sound hne he hs
  case h_5 hs => exact chunkData_meets hne he hs
  case h_6 =>
    refine perform_meets hne hlen he (Parser.react_sound he.parser ?_)
    unfold ParserState.hasLoop
    split <;> simp_all

/-! ### The whole run keeps it -/

/-- What holds of the run where one way through the `switch` ends. -/
def Next.Keeps (kept : Exec σ → Prop) : Next σ → Prop
  | .advance _ e => kept e
  | .reexecute _ _ e => kept e

/-- No state needs more than four ways through the `switch`. -/
theorem ParserState.rank_le (state : ParserState) : state.rank ≤ 4 := by
  unfold ParserState.rank
  split <;> decide

section Keeping

variable [HeaderCounter] {fuel : ℕ} {kept : Exec σ → Prop} {onReturn : Returned σ → Prop}
  (hpass : ∀ {e : Exec σ} {at_ : List UInt8} {ch : UInt8}, at_ ≠ [] → at_.length ≤ len →
    e.SoundAt 1 → kept e →
    Meets onReturn
      (fun next ↦ Next.Sound at_ e.parser.state.rank next ∧ next.Keeps kept)
      (e.pass settings len at_ ch))
include hpass

/-- Ways through the `switch` for one byte, at most as many as the state may need, keep what one
way keeps beside the invariant. -/
theorem passes_keep : ∀ {e : Exec σ} {at_ : List UInt8} {ch : UInt8}, at_ ≠ [] →
    at_.length ≤ len → e.SoundAt 1 → kept e → e.parser.state.rank ≤ fuel →
    Meets onReturn
      (fun after ↦ (after.2.SoundAt 0 ∧ kept after.2) ∧ after.1.length < at_.length)
      (passes settings len fuel e at_ ch) := by
  induction fuel with
  | zero =>
    intro e at_ ch _ _ _ _ hrank
    have hpos : 0 < e.parser.state.rank := by
      unfold ParserState.rank
      split <;> decide
    omega
  | succ fuel ih =>
    intro e at_ ch hne hlen he hkept hrank
    rw [passes]
    refine (hpass hne hlen he hkept).bind ?_
    rintro next ⟨hnext, hkept'⟩
    cases next with
    | advance rest e' => exact ⟨⟨hnext.1, hkept'⟩, hnext.2⟩
    | reexecute at_' ch' e' =>
      obtain ⟨he', hlt, hne', hle⟩ := hnext
      refine (ih hne' (hle.trans hlen) he' hkept' (by omega)).imp ?_
      exact fun after hafter ↦ ⟨hafter.1, hafter.2.trans_le hle⟩

/-- The loop over a buffer keeps what the count of a byte and one way through the `switch` keep
beside the invariant. -/
theorem loop_keep
    (hcount : ∀ {e : Exec σ} {at_ : List UInt8}, e.SoundAt 0 → kept e →
      Meets onReturn (fun e' ↦ e'.SoundAt 1 ∧ kept e') (e.countByte len at_)) :
    ∀ {data : List UInt8} {e : Exec σ}, data.length ≤ fuel → data.length ≤ len → e.SoundAt 0 →
      kept e →
      Meets onReturn (fun e' ↦ e'.SoundAt 0 ∧ kept e')
        (loop settings len fuel data e) := by
  induction fuel with
  | zero =>
    intro data e hfuel _ he hkept
    obtain rfl := List.eq_nil_of_length_eq_zero (Nat.le_zero.mp hfuel)
    exact ⟨he, hkept⟩
  | succ fuel ih =>
    intro data e hfuel hlen he hkept
    cases data with
    | nil => exact ⟨he, hkept⟩
    | cons ch rest =>
      rw [loop]
      refine (hcount he hkept).bind fun e' he' ↦ ?_
      refine (passes_keep hpass (List.cons_ne_nil ch rest) hlen he'.1 he'.2
        e'.parser.state.rank_le).bind ?_
      rintro after ⟨⟨he'', hkept''⟩, hlt⟩
      simp only [List.length_cons] at hlt hfuel hlen
      exact ih (by omega) (by omega) he'' hkept''

end Keeping

/-- The invariant alone. -/
theorem pass_keeps [HeaderCounter] {e : Exec σ} {at_ : List UInt8} {ch : UInt8} (hne : at_ ≠ [])
    (hlen : at_.length ≤ len) (he : e.SoundAt 1) (_ : True) :
    Meets (Returned.Sound len)
      (fun next ↦ Next.Sound at_ e.parser.state.rank next ∧ next.Keeps fun _ ↦ True)
      (e.pass settings len at_ ch) :=
  (pass_meets hne hlen he).imp fun next hnext ↦ ⟨hnext, by cases next <;> trivial⟩

theorem passes_meets [HeaderCounter] {fuel : ℕ} {e : Exec σ} {at_ : List UInt8} {ch : UInt8}
    (hne : at_ ≠ [])
    (hlen : at_.length ≤ len) (he : e.SoundAt 1) (hrank : e.parser.state.rank ≤ fuel) :
    Meets (Returned.Sound len) (fun after ↦ after.2.SoundAt 0 ∧ after.1.length < at_.length)
      (passes settings len fuel e at_ ch) :=
  (passes_keep pass_keeps hne hlen he trivial hrank).imp
    fun _ hafter ↦ ⟨hafter.1.1, hafter.2⟩

theorem countByte_meets [HeaderCounter] {at_ : List UInt8} (he : e.SoundAt 0) :
    Meets (Returned.Sound len) (Exec.SoundAt 1) (e.countByte len at_) := by
  unfold Exec.countByte
  split_ifs with hparsing
  · refine (countHeaderSize_meets (offset_le len at_)).imp ?_
    rintro e' rfl
    refine ⟨⟨?_, he.parser.length_le⟩, he.errno, he.marks⟩
    have hfits := he.parser.fits
    unfold Parser.StateFits at hfits ⊢
    split at hfits <;> simp_all
  · refine ⟨⟨?_, he.parser.length_le⟩, he.errno, he.marks⟩
    have hfits := he.parser.fits
    unfold Parser.StateFits at hfits ⊢
    split at hfits <;> simp_all [ParserState.parsingHeader]

theorem loop_meets [HeaderCounter] {fuel : ℕ} {data : List UInt8} {e : Exec σ}
    (hfuel : data.length ≤ fuel) (hlen : data.length ≤ len) (he : e.SoundAt 0) :
    Meets (Returned.Sound len) (Exec.SoundAt 0) (loop settings len fuel data e) := by
  refine (loop_keep pass_keeps ?_ hfuel hlen he trivial).imp fun e' he' ↦ he'.1
  exact fun he _ ↦ (countByte_meets he).imp fun e' he' ↦ ⟨he', trivial⟩

theorem markCount_le {marks : Element → Option (List UInt8)} {opened : Option Element}
    (hmarks : ∀ element, marks element ≠ none → opened = some element) : markCount marks ≤ 1 := by
  have hnone (element : Element) (hne : opened ≠ some element) : marks element = none := by
    by_contra hset
    exact hne (hmarks element hset)
  unfold markCount elements
  cases opened with
  | none => simp [hnone]
  | some element =>
    cases element <;> simp [hnone, List.countP_cons] <;> split_ifs <;> decide

section Flushing

variable {onReturn : Returned σ → Prop}
  (hreport : ∀ {e : Exec σ} {element : Element}, e.parser.httpErrno = .ok →
    Meets onReturn (fun e' ↦ e'.parser = e.parser) (e.report settings element [] len))
include hreport

theorem reports_keep {es : List Element} : ∀ {e : Exec σ}, e.parser.httpErrno = .ok →
    Meets onReturn (fun e' ↦ e'.parser = e.parser)
      (es.foldlM (fun e element ↦ e.report settings element [] len) e) := by
  induction es with
  | nil => exact fun _ ↦ rfl
  | cons element es ih =>
    intro e hok
    rw [List.foldlM_cons]
    refine (hreport hok).bind fun e' hparser ↦ ?_
    refine (ih (by rw [hparser]; exact hok)).imp ?_
    rintro e'' hafter
    rw [hafter, hparser]

/-- What is reported behind the loop leaves the parser, when one element may be open. -/
theorem flush_keep (he : e.SoundAt 0) :
    Meets onReturn (fun e' ↦ e'.parser = e.parser) (e.flush settings len) := by
  unfold Exec.flush
  rw [if_neg (not_lt.mpr (markCount_le he.marks))]
  exact reports_keep hreport he.errno

end Flushing

theorem flush_meets (he : e.SoundAt 0) :
    Meets (Returned.Sound len) (fun e' ↦ e'.parser = e.parser) (e.flush settings len) :=
  flush_keep (fun hok ↦ (report_meets hok le_rfl).imp fun _ hafter ↦ hafter.1) he

end Executing

/-! ### Calls -/

/-- A parser between two calls: it has an error, or the invariant holds. -/
def Parser.Resting (p : Parser) : Prop := p.httpErrno = .ok → p.SoundAt 0

theorem Parser.resting_init (type : ParserType) : (Parser.init type).Resting := by
  intro _
  cases type <;> exact ⟨trivial, Nat.zero_le _⟩

section Calling

variable {σ : Type} (settings : Callback → σ → ℕ × σ) (data : List UInt8) {p : Parser} (user : σ)

/-- What a call on a parser between two calls leaves: one between two calls again. It takes no more
than the buffer, and all of it unless there is an error or an upgrade. The end of the stream in the
middle of a message is an error for which the call returns one. -/
structure Returned.Resting (len : ℕ) (r : Returned σ) : Prop where
  parser : r.parser.Resting
  nparsed_le : r.nparsed ≤ len ∨
    len = 0 ∧ r.nparsed = 1 ∧ r.parser.httpErrno = .invalidEofState
  all : r.nparsed < len → r.parser.httpErrno ≠ .ok ∨ r.parser.upgrade = true

theorem Returned.Sound.resting {len : ℕ} {r : Returned σ} (hr : r.Sound len) : r.Resting len where
  parser := fun hok ↦ (hr.parser hok).1
  nparsed_le := Or.inl hr.nparsed_le
  all := fun hlt ↦ by
    by_cases hok : r.parser.httpErrno = .ok
    · exact Or.inr ((hr.parser hok).2 hlt)
    · exact Or.inl hok

/-- The marks of the beginning of a buffer. -/
theorem startMarks_markedFor (state : ParserState) (element : Element)
    (hset : startMarks state data element ≠ none) : state.openable = some element := by
  unfold startMarks at hset
  split_ifs at hset with hopen
  · unfold openElement at hopen
    unfold ParserState.openable
    split at hopen <;> simp_all
  · exact absurd rfl hset

/-- An empty buffer leaves the fields as they are, but for an error. -/
theorem endOfStream_meets {e : Exec σ} (he : e.parser.Resting) (hok : e.parser.httpErrno = .ok) :
    Meets (Returned.Resting 0) (fun _ ↦ False) (e.endOfStream settings) := by
  have hreturned {r : Returned σ} (hr : r.parser.Resting) (hnone : r.nparsed = 0) : r.Resting 0 :=
    ⟨hr, Or.inl hnone.le, fun hlt ↦ absurd hlt (Nat.not_lt_zero _)⟩
  unfold Exec.endOfStream
  split
  · have hcalled : Meets (Returned.Resting 0) (fun e' ↦ e'.parser = e.parser)
        (e.call settings .messageComplete .cbMessageComplete 0) := by
      unfold Exec.call
      rw [if_neg (not_not_intro hok)]
      simp only
      split_ifs
      · exact hreturned (fun herrno ↦ HttpErrno.noConfusion herrno) rfl
      · rfl
    refine hcalled.bind fun e' hparser ↦ hreturned ?_ rfl
    rw [hparser]
    exact he
  · exact hreturned he rfl
  · exact hreturned he rfl
  · exact hreturned he rfl
  · exact ⟨fun herrno ↦ HttpErrno.noConfusion herrno, Or.inr ⟨rfl, rfl, rfl⟩,
      fun hlt ↦ absurd hlt (Nat.not_lt_zero _)⟩

theorem executeBody_meets [HeaderCounter] (hp : p.Resting) :
    Meets (Returned.Resting data.length) (fun _ ↦ False) (executeBody settings data p user) := by
  unfold executeBody
  simp only
  split_ifs with herrno hempty
  · exact ⟨hp, Or.inl (Nat.zero_le _), fun _ ↦ Or.inl herrno⟩
  · rw [hempty]
    exact endOfStream_meets settings hp (not_not.mp herrno)
  · have hok := not_not.mp herrno
    have he : Exec.SoundAt 0 (⟨p, startMarks p.state data, user⟩ : Exec σ) :=
      ⟨hp hok, hok, startMarks_markedFor data p.state⟩
    refine Meets.imp_return ?_ fun r ↦ Returned.Sound.resting
    refine (loop_meets le_rfl le_rfl he).bind fun e' he' ↦ ?_
    refine (flush_meets he').bind ?_
    rintro e'' hparser
    refine ⟨le_rfl, fun _ ↦ ⟨?_, fun hlt ↦ absurd hlt (lt_irrefl _)⟩⟩
    rw [hparser]
    exact he'.parser

/-- A call on a parser between two calls returns. -/
theorem Parser.Resting.execute [HeaderCounter] (hp : p.Resting) :
    ∃ r, httpParserExecute settings data p user = some r ∧ r.Resting data.length := by
  have hmeets := executeBody_meets settings data user hp
  unfold httpParserExecute
  cases hbody : executeBody settings data p user with
  | ok e =>
    rw [hbody] at hmeets
    exact hmeets.elim
  | error stop =>
    rw [hbody] at hmeets
    cases stop with
    | returned result => exact ⟨result, rfl, hmeets⟩
    | stuck => exact hmeets.elim

end Calling

/-- The parsers that calls lead to, from a new one. Each call has its own buffer and callbacks. -/
inductive Parser.Reachable : Parser → Prop
  | init (type : ParserType) : Reachable (Parser.init type)
  | execute {σ : Type} (settings : Callback → σ → ℕ × σ) (data : List UInt8) (user : σ)
      {p : Parser} {r : Returned σ} : Reachable p →
      httpParserExecute settings data p user = some r → Reachable r.parser

theorem Parser.Reachable.resting {p : Parser} (hp : p.Reachable) : p.Resting := by
  induction hp with
  | init type => exact Parser.resting_init type
  | execute settings data user _ hcall ih =>
    obtain ⟨r, hreturned, hr⟩ := ih.execute settings data user
    rw [hcall] at hreturned
    cases hreturned
    exact hr.parser

/-- Assumes: a parser that calls lead to. The next call returns, whatever its buffer and its
callbacks are: no assertion fails, and no byte asks for more ways through the `switch` than there
are. It takes no more than the buffer, but for the one that stands for the end of the stream in the
middle of a message, and all of the buffer unless it leaves an error or an upgrade. -/
theorem httpParserExecute_returns {p : Parser} (hp : p.Reachable) {σ : Type}
    (settings : Callback → σ → ℕ × σ) (data : List UInt8) (user : σ) :
    ∃ r, httpParserExecute settings data p user = some r ∧
      (r.nparsed ≤ data.length ∨
        data = [] ∧ r.nparsed = 1 ∧ r.parser.httpErrno = .invalidEofState) ∧
      (r.nparsed < data.length → r.parser.httpErrno ≠ .ok ∨ r.parser.upgrade = true) ∧
      (r.parser.httpErrno = .ok → r.parser.contentLength < 2 ^ 64) := by
  obtain ⟨r, hcall, hr⟩ := hp.resting.execute settings data user
  refine ⟨r, hcall, ?_, hr.all, fun hok ↦ ?_⟩
  · rw [← List.length_eq_zero_iff]
    exact hr.nparsed_le
  · have hlength := (hr.parser hok).length_le
    unfold ullongMax at hlength
    omega

theorem httpParserExecute_returns_get :
    ∃ r, httpParserExecute (fun _ calls ↦ (0, calls + 1)) (ascii "GET / HTTP/1.1")
        (Parser.init .request) 0 = some r ∧
      (r.nparsed ≤ (ascii "GET / HTTP/1.1").length ∨ ascii "GET / HTTP/1.1" = [] ∧
        r.nparsed = 1 ∧ r.parser.httpErrno = .invalidEofState) ∧
      (r.nparsed < (ascii "GET / HTTP/1.1").length →
        r.parser.httpErrno ≠ .ok ∨ r.parser.upgrade = true) ∧
      (r.parser.httpErrno = .ok → r.parser.contentLength < 2 ^ 64) :=
  httpParserExecute_returns (.init .request) _ _ _

end Cczoe.Http
