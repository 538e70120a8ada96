import Cczoe.Http.ParserSplits

/-!
# The loop over the bytes of two buffers

The loop of `http_parser_execute` over `first ++ second`, compared with the loop over `first` from
where it goes on over `second` with the marks that it has (`loop_split`). On the way every element
that is open has a mark (`Exec.Opened`), and another way through the `switch` is made only in a
state without a loop (`Next.Tidy`).
-/

set_option autoImplicit false
set_option relaxedAutoImplicit false

namespace Cczoe.Http

open Foundations

section Executing

variable {σ : Type} {settings : Callback → σ → ℕ × σ} {len before len' nparsed fuel : ℕ}
  {tail at_ rest : List UInt8} {e : Exec σ} {c ch : UInt8}

/-! ### The open element is marked -/

/-- The element that is open in a state has a mark. -/
def Exec.Opened (e : Exec σ) : Prop :=
  ∀ element, openElement e.parser.state = some element → (e.marks element).isSome = true

theorem Exec.opened_of_none (hnone : openElement e.parser.state = none) : e.Opened :=
  fun _ hsome ↦ absurd (hnone.symm.trans hsome) (Option.some_ne_none _).symm

/-- Where the run goes on, the open element is marked, and another way through the `switch` is in a
state without a loop. -/
def Next.Tidy : Next σ → Prop
  | .advance _ e => e.Opened
  | .reexecute _ _ e => e.Opened ∧ e.parser.state.hasLoop = false

theorem countHeaderSize_tidy [HeaderCounter] {count : ℕ} (onValue : Exec σ → Prop)
    (hvalue : onValue { e with
      parser := e.parser.counting (HeaderCounter.hold (e.parser.nread + count)) }) :
    Meets (fun _ ↦ True) onValue (e.countHeaderSize count nparsed) := by
  unfold Exec.countHeaderSize
  simp only
  split_ifs
  · trivial
  · exact hvalue

theorem perform_tidy {reaction : Reaction} (hne : at_ ≠ []) (hlen : at_.length ≤ len)
    (he : e.SoundAt 1) (hopened : e.Opened) (hsound : reaction.Sound e.parser)
    (horderly : reaction.Orderly e.parser) :
    Meets (fun _ ↦ True) Next.Tidy (e.perform settings len at_ ch reaction) := by
  have hok : ({ e with parser := reaction.parser } : Exec σ).parser.httpErrno = .ok :=
    hsound.errno.trans he.errno
  have hacts : Meets (fun _ ↦ True)
      (fun after : Exec σ ↦ after.parser.state = reaction.parser.state ∧ after.Opened)
      (reaction.acts.foldlM (fun e act ↦ e.act settings len at_ act)
        { e with parser := reaction.parser }) := by
    cases hopen : openElement reaction.parser.state with
    | none =>
      refine ((acts_meets none none hne hlen hok).imp ?_).imp_return ?_
      · rintro after ⟨hacted, -⟩
        refine ⟨hacted.state, Exec.opened_of_none ?_⟩
        rw [hacted.state]
        exact hopen
      · exact fun _ _ ↦ trivial
    | some element =>
      rcases horderly.opens element hopen with hmark | ⟨hnone, hbefore⟩
      · rw [hmark]
        have hstate : (Exec.mark { e with parser := reaction.parser } element at_).parser.state =
            reaction.parser.state := congrArg Parser.state (Exec.mark_parser element at_)
        refine ⟨hstate, fun other hother ↦ ?_⟩
        rw [hstate, hopen] at hother
        rw [← Option.some.inj hother]
        exact isSome_mark element at_
      · rw [hnone]
        refine ⟨rfl, fun other hother ↦ hopened other ?_⟩
        exact hbefore.trans (hopen.symm.trans hother)
  unfold Exec.perform
  refine hacts.bind ?_
  rintro after ⟨hstate, hafter⟩
  cases hflow : reaction.flow with
  | next => exact hafter
  | reexecute =>
    refine ⟨hafter, ?_⟩
    rw [hstate]
    exact horderly.retry hflow
  | fail errno => trivial
  | exit => trivial
  | assertion =>
    have hnever := hsound.flow
    rw [hflow] at hnever
    exact hnever.elim

theorem report_tidy {element : Element} {stop : List UInt8} (hok : e.parser.httpErrno = .ok) :
    Meets (fun _ ↦ True) (fun after ↦ after.parser = e.parser)
      (e.report settings element stop nparsed) :=
  (report_rejects hok).imp_return fun _ _ ↦ trivial

theorem headerField_tidy [HeaderCounter] (he : e.SoundAt 1) (hs : e.parser.state = .headerField)
    (hopened : e.Opened) :
    Meets (fun _ ↦ True) Next.Tidy (e.headerField settings len at_) := by
  have hname := he.parser.fits
  rw [Parser.StateFits, hs] at hname
  obtain ⟨result, hloop, hresult⟩ := Parser.fieldLoop_sound at_ hname
  unfold Exec.headerField
  rw [hloop]
  cases result with
  | ended after =>
    refine Meets.bind (countHeaderSize_tidy Exec.Opened ?_) fun _ h ↦ h
    intro element helement
    refine hopened element ?_
    rw [← hresult.1.state]
    exact helement
  | stopped stop after =>
    refine Meets.bind (countHeaderSize_tidy (fun e' ↦ e'.parser.httpErrno = .ok)
      (hresult.1.errno.trans he.errno)) fun e' hok ↦ ?_
    split_ifs
    · refine (report_tidy (by exact hok)).bind fun last hlast ↦ ?_
      exact Exec.opened_of_none (by rw [hlast]; rfl)
    · trivial

theorem headerValue_tidy [HeaderCounter] (he : e.SoundAt 1) (hs : e.parser.state = .headerValue)
    (hopened : e.Opened) :
    Meets (fun _ ↦ True) Next.Tidy (e.headerValue settings len at_) := by
  have hvalue := he.parser.fits
  rw [Parser.StateFits, hs] at hvalue
  obtain ⟨result, hloop, hresult⟩ := Parser.valueLoop_sound at_ none e.parser hvalue
  unfold Exec.headerValue
  rw [hloop]
  cases result with
  | failed stop after errno => trivial
  | ended h after =>
    refine Meets.bind (countHeaderSize_tidy Exec.Opened ?_) fun _ h ↦ h
    intro element helement
    refine hopened element ?_
    rw [← hresult.2.state]
    exact helement
  | lineBreak stop h after =>
    have hok := hresult.2.1.errno.trans he.errno
    simp only
    split_ifs
    · refine (report_tidy (by exact hok)).bind fun last hlast ↦ ?_
      refine Meets.bind (countHeaderSize_tidy Exec.Opened ?_) fun _ h ↦ h
      refine Exec.opened_of_none ?_
      change openElement last.parser.state = none
      rw [hlast]
      rfl
    · refine Meets.bind (countHeaderSize_tidy (fun e' ↦
        e'.parser.httpErrno = .ok ∧ e'.parser.state = .headerAlmostDone) ⟨hok, rfl⟩) ?_
      rintro e' ⟨hok', hstate⟩
      refine (report_tidy (by exact hok')).bind fun last hlast ↦ ?_
      have hlast' : last.parser.state = .headerAlmostDone := by
        rw [hlast]
        exact hstate
      exact ⟨Exec.opened_of_none (by rw [hlast']; rfl), by rw [hlast']; rfl⟩

/-- One way through the `switch`. -/
theorem pass_tidy [HeaderCounter] (hne : at_ ≠ []) (hlen : at_.length ≤ len) (he : e.SoundAt 1)
    (hopened : e.Opened) :
    Meets (fun _ ↦ True) Next.Tidy (e.pass settings len at_ ch) := by
  cases hloop : e.parser.state.hasLoop with
  | false =>
    rw [pass_eq_perform hloop]
    exact perform_tidy hne hlen he hopened (Parser.react_sound he.parser hloop)
      (react_orderly he.parser hloop)
  | true =>
    unfold Exec.pass
    cases hs : e.parser.state with
    | headerField => exact headerField_tidy he hs hopened
    | headerValue => exact headerValue_tidy he hs hopened
    | bodyIdentity =>
      simp only
      rcases le_or_gt e.parser.contentLength at_.length with hle | hlt
      · rw [bodyIdentity_done he hs hle]
        refine (report_tidy (by exact he.errno)).bind fun last hlast ↦ ?_
        exact ⟨Exec.opened_of_none (by rw [hlast]; rfl), by rw [hlast]; rfl⟩
      · rw [bodyIdentity_more he hs hlt]
        exact Exec.opened_of_none (congrArg openElement hs)
    | chunkData =>
      simp only
      rcases le_or_gt e.parser.contentLength at_.length with hle | hlt
      · rw [chunkData_done he hs hle]
        exact Exec.opened_of_none rfl
      · rw [chunkData_more he hs hlt]
        exact Exec.opened_of_none (congrArg openElement hs)
    | bodyIdentityEof =>
      refine Exec.opened_of_none ?_
      rw [Exec.mark_parser, hs]
      rfl
    | _ =>
      rw [hs] at hloop
      exact absurd hloop Bool.false_ne_true

/-- What is known behind one way through the `switch`. -/
theorem pass_ends [HeaderCounter] (hne : at_ ≠ []) (hlen : at_.length ≤ len) (he : e.SoundAt 1)
    (hopened : e.Opened) :
    Meets (Returned.Sound len) (fun next ↦ Next.Sound at_ e.parser.state.rank next ∧ next.Tidy)
      (e.pass settings len at_ ch) :=
  (pass_meets hne hlen he).and (pass_tidy hne hlen he hopened)

theorem pass_opened [HeaderCounter] (hne : at_ ≠ []) (hlen : at_.length ≤ len) (he : e.SoundAt 1)
    (hopened : e.Opened) :
    Meets (Returned.Sound len)
      (fun next ↦ Next.Sound at_ e.parser.state.rank next ∧ next.Keeps Exec.Opened)
      (e.pass settings len at_ ch) := by
  refine (pass_ends hne hlen he hopened).imp ?_
  rintro next ⟨hnext, htidy⟩
  refine ⟨hnext, ?_⟩
  cases next with
  | advance rest e' => exact htidy
  | reexecute at_' ch' e' => exact htidy.1

theorem passes_opened [HeaderCounter] (hne : at_ ≠ []) (hlen : at_.length ≤ len) (he : e.SoundAt 1)
    (hopened : e.Opened) (hrank : e.parser.state.rank ≤ fuel) :
    Meets (Returned.Sound len)
      (fun after ↦ (after.2.SoundAt 0 ∧ after.2.Opened) ∧ after.1.length < at_.length)
      (passes settings len fuel e at_ ch) :=
  passes_keep pass_opened hne hlen he hopened hrank

/-! ### The loop over the bytes -/

theorem not_cut_of_hasLoop (hloop : e.parser.state.hasLoop = false) : ¬ e.Cut at_ := by
  intro hcut
  unfold Exec.Cut at hcut
  cases hs : e.parser.state <;> rw [hs] at hcut hloop <;> first
    | exact hcut
    | exact absurd hloop (by decide)

/-- The ways through the `switch` for a byte of the first part, when no loop in them reaches its
end. -/
theorem passes_extend [ExactCounter] (hlens : len = before + len' + tail.length) :
    ∀ {e : Exec σ} {at_ : List UInt8} {ch : UInt8}, at_ ≠ [] → at_.length ≤ len' → e.SoundAt 1 →
      e.Opened → (e.parser.state = .headerValue → 1 ≤ e.parser.nread) →
      (tail = [] ∨ ¬ e.Cut at_) →
      Follows (Completes len) (SameExit tail len')
        (fun after after' ↦ after = (after'.1 ++ tail, after'.2.extend tail))
        (passes settings len fuel (e.extend tail) (at_ ++ tail) ch)
        (passes settings len' fuel e at_ ch) := by
  induction fuel with
  | zero => exact fun _ _ _ _ _ _ ↦ trivial
  | succ fuel ih =>
    intro e at_ ch hne hlen he hopened hread hcut
    rw [passes, passes]
    refine ((pass_extend he hread hcut hne hlen hlens).and_meets
      (pass_ends hne hlen he hopened)).bind ?_
    rintro next next' ⟨rfl, hnext, htidy⟩
    cases next' with
    | advance rest e' => exact ⟨_, rfl, rfl⟩
    | reexecute at_' ch' e' =>
      obtain ⟨he', -, hne', hle⟩ := hnext
      refine ih hne' (hle.trans hlen) he' htidy.1 ?_ (Or.inr (not_cut_of_hasLoop htidy.2))
      intro hvalue
      have hloop := htidy.2
      rw [hvalue] at hloop
      exact absurd hloop (by decide)

/-- The state in which a message is complete does not look at the byte. -/
theorem passes_messageDone [HeaderCounter] (hs : e.parser.state = .messageDone) (ch ch' : UInt8) :
    passes settings len fuel e at_ ch = passes settings len fuel e at_ ch' := by
  cases fuel with
  | zero => rfl
  | succ fuel =>
    have hpass (ch : UInt8) : e.pass settings len at_ ch = e.perform settings len at_ ch
        (e.parser.complete (if e.parser.upgrade then .exit else .next)) := by
      rw [pass_eq_perform (by rw [hs]; rfl)]
      simp only [Parser.react, hs]
    have hsame : e.pass settings len at_ ch = e.pass settings len at_ ch' := by
      rw [hpass, hpass]
      unfold Exec.perform
      simp only [Parser.complete]
      cases e.parser.upgrade <;> rfl
    rw [passes, passes, hsame]

/-- The ways through the `switch` in which the first part comes to its end: they are refused, or go
on in the second part. -/
theorem passes_cut [ExactCounter] (he : e.SoundAt 1)
    (hread : e.parser.state = .headerValue → 1 ≤ e.parser.nread) (hcut : e.Cut at_)
    (hne : at_ ≠ []) :
    Rejected (Completes len)
      (passes settings len (fuel + 1) (e.extend (c :: rest)) (at_ ++ c :: rest) ch) ∨
    ∃ e' : Exec σ, passes settings len' (fuel + 1) e at_ ch = .ok ([], e') ∧
      Follows (Completes len) Eq Eq
        (passes settings len (fuel + 1) (e.extend (c :: rest)) (at_ ++ c :: rest) ch)
        ((e'.extend (c :: rest)).countByte len (c :: rest) >>= fun e'' ↦
          passes settings len (fuel + 1) e'' (c :: rest) c) := by
  rcases pass_cut ch he hread hcut hne with hrejected | ⟨e', hfirst, hwhole⟩
  · refine Or.inl ?_
    rw [passes]
    exact hrejected.bind
  · refine Or.inr ⟨e', ?_, ?_⟩
    · rw [passes, hfirst]
      rfl
    · simp only [passes]
      rw [← bind_assoc]
      refine hwhole.bind ?_
      rintro next next' (rfl | ⟨at_', ch', ch'', last, rfl, rfl, hlast⟩)
      · exact follows_refl _
      · simp only
        rw [passes_messageDone hlast ch' ch'']
        exact follows_refl _

theorem countByte_extend [HeaderCounter] (at_ : List UInt8) :
    Follows (Completes len) (SameExit tail len') (Extends tail)
      ((e.extend tail).countByte len (at_ ++ tail)) (e.countByte len' at_) := by
  unfold Exec.countByte
  rw [Exec.extend_parser]
  split_ifs
  · exact countHeaderSize_extend
  · exact ⟨_, rfl, rfl⟩

/-- A byte of the head is counted before the parser looks at it. -/
theorem countByte_ends [ExactCounter] (he : e.SoundAt 0) (hopened : e.Opened) :
    Meets (Returned.Sound len)
      (fun e' ↦ e'.SoundAt 1 ∧ e'.Opened ∧ (e'.parser.state = .headerValue → 1 ≤ e'.parser.nread))
      (e.countByte len at_) := by
  have hread : Meets (fun _ ↦ True)
      (fun e' : Exec σ ↦ e'.Opened ∧ (e'.parser.state = .headerValue → 1 ≤ e'.parser.nread))
      (e.countByte len at_) := by
    unfold Exec.countByte
    split_ifs with hparsing
    · refine countHeaderSize_tidy _ ⟨hopened, fun _ ↦ ?_⟩
      rw [ExactCounter.hold_eq]
      exact Nat.le_add_left _ _
    · refine ⟨hopened, fun hvalue ↦ ?_⟩
      rw [hvalue] at hparsing
      exact absurd rfl hparsing
  exact ((countByte_meets he).and hread)

theorem loop_opened [ExactCounter] {data : List UInt8} (hfuel : data.length ≤ fuel)
    (hlen : data.length ≤ len) (he : e.SoundAt 0) (hopened : e.Opened) :
    Meets (Returned.Sound len) (fun e' ↦ e'.SoundAt 0 ∧ e'.Opened)
      (loop settings len fuel data e) := by
  refine loop_keep pass_opened ?_ hfuel hlen he hopened
  exact fun he hopened ↦ (countByte_ends he hopened).imp fun e' he' ↦ ⟨he'.1, he'.2.1⟩

/-- More turns than there are bytes make no difference. -/
theorem loop_fuel [HeaderCounter] {fuel' : ℕ} : ∀ {data : List UInt8} {e : Exec σ} {fuel : ℕ},
    data.length ≤ fuel → data.length ≤ fuel' → data.length ≤ len → e.SoundAt 0 →
    loop settings len fuel data e = loop settings len fuel' data e := by
  induction fuel' with
  | zero =>
    intro data e fuel _ hfuel' _ _
    obtain rfl := List.eq_nil_of_length_eq_zero (Nat.le_zero.mp hfuel')
    cases fuel <;> rfl
  | succ fuel' ih =>
    intro data e fuel hfuel hfuel' hlen he
    cases data with
    | nil => cases fuel <;> rfl
    | cons ch rest =>
      obtain ⟨fuel, rfl⟩ := Nat.exists_eq_succ_of_ne_zero (Nat.ne_zero_of_lt hfuel)
      rw [loop, loop]
      refine (countByte_meets he).bind_congr fun e' he' ↦ ?_
      refine (passes_meets (List.cons_ne_nil ch rest) hlen he'
        e'.parser.state.rank_le).bind_congr ?_
      rintro after ⟨he'', hlt⟩
      simp only [List.length_cons] at hlt hfuel hfuel' hlen
      exact ih (by omega) (by omega) (by omega) he''

/-- The loop over the whole is the loop over the first part and then, with its marks, the loop over
the second. -/
theorem loop_split [ExactCounter] (hlens : len = len' + (c :: rest).length) {fuel' : ℕ}
    (hfuel' : (c :: rest).length ≤ fuel') :
    ∀ {first : List UInt8} {e : Exec σ} {wholeFuel : ℕ}, first.length ≤ fuel →
      (first ++ c :: rest).length ≤ wholeFuel → first.length ≤ len' → e.SoundAt 0 → e.Opened →
      Follows (Completes len) Eq Eq
        (loop settings len wholeFuel (first ++ c :: rest) (e.extend (c :: rest)))
        (loop settings len' fuel first e >>= fun e' ↦
          loop settings len fuel' (c :: rest) (e'.extend (c :: rest))) := by
  have hnever {r r' : Returned σ} (hexit : SameExit (c :: rest) len' r r') : r = r' :=
    absurd hexit.1 (List.cons_ne_nil c rest)
  have hlens' : len = 0 + len' + (c :: rest).length := by rw [Nat.zero_add, ← hlens]
  have hsecond : (c :: rest).length ≤ len := by
    rw [hlens]
    exact Nat.le_add_left _ _
  have hbegin {e : Exec σ} {wholeFuel : ℕ} (hwhole : (c :: rest).length ≤ wholeFuel)
      (he : e.SoundAt 0) :
      Follows (Completes len) Eq Eq
        (loop settings len wholeFuel (c :: rest) (e.extend (c :: rest)))
        (loop settings len fuel' (c :: rest) (e.extend (c :: rest))) := by
    rw [loop_fuel hwhole hfuel' hsecond he.extend]
    exact follows_refl _
  induction fuel with
  | zero =>
    intro first e wholeFuel hfuel hwhole _ he _
    obtain rfl := List.eq_nil_of_length_eq_zero (Nat.le_zero.mp hfuel)
    exact hbegin hwhole he
  | succ fuel ih =>
    intro first e wholeFuel hfuel hwhole hlen he hopened
    cases first with
    | nil => exact hbegin hwhole he
    | cons ch first =>
      obtain ⟨wholeFuel, rfl⟩ := Nat.exists_eq_succ_of_ne_zero (Nat.ne_zero_of_lt hwhole)
      obtain ⟨more, rfl⟩ := Nat.exists_eq_succ_of_ne_zero (Nat.ne_zero_of_lt hfuel')
      rw [List.cons_append, loop, loop, bind_assoc]
      have hne := List.cons_ne_nil ch first
      refine ((countByte_extend (ch :: first)).imp_result fun _ _ _ ↦ hnever).and_meets
        (countByte_ends he hopened) |>.bind ?_
      rintro _ e' ⟨rfl, he', hopened', hread⟩
      rw [bind_assoc]
      by_cases hcut : e'.Cut (ch :: first)
      · rcases passes_cut he' hread hcut hne with hrejected | ⟨last, hfirst, hwhole'⟩
        · exact hrejected.bind.follows
        · -- the first part has come to its end, and the whole goes on in the second
          have hlast : last.SoundAt 0 := by
            have hends : Meets (Returned.Sound len')
                (fun after ↦ after.2.SoundAt 0 ∧ after.1.length < (ch :: first).length)
                (passes settings len' 4 e' (ch :: first) ch) :=
              passes_meets hne hlen he' e'.parser.state.rank_le
            rw [hfirst] at hends
            exact hends.1
          have hends : Meets (Returned.Sound len)
              (fun after : List UInt8 × Exec σ ↦
                after.2.SoundAt 0 ∧ after.1.length < (c :: rest).length)
              ((last.extend (c :: rest)).countByte len (c :: rest) >>= fun e'' ↦
                passes settings len 4 e'' (c :: rest) c) :=
            (countByte_meets hlast.extend).bind fun e'' he'' ↦
              passes_meets (List.cons_ne_nil c rest) hsecond he'' e''.parser.state.rank_le
          have hdone (fuel : ℕ) : loop settings len' fuel [] last = .ok last := by
            cases fuel <;> rfl
          simp only [hfirst, ok_bind, hdone]
          rw [loop, ← bind_assoc]
          refine (hwhole'.and_meets hends).bind ?_
          rintro after _ ⟨rfl, hafter, hlt⟩
          simp only [List.length_cons, List.length_append] at hlt hwhole hfuel' hsecond
          have hsame : loop settings len wholeFuel after.1 after.2 =
              loop settings len more after.1 after.2 :=
            loop_fuel (by omega) (by omega) (by omega) hafter
          rw [hsame]
          exact follows_refl _
      · refine ((passes_extend hlens' hne hlen he' hopened' hread (Or.inr hcut)).imp_result
          fun _ _ _ ↦ hnever).and_meets
          (passes_opened hne hlen he' hopened' e'.parser.state.rank_le) |>.bind ?_
        rintro _ after ⟨rfl, ⟨hafter, hopened''⟩, hlt⟩
        simp only [List.length_cons, List.length_append] at hlt hwhole hlen hfuel
        exact ih (by omega) (by simp only [List.length_append, List.length_cons]; omega) (by omega)
          hafter hopened''

end Executing

end Cczoe.Http
