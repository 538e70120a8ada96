import Cczoe.Http.ParserContinuation

/-!
# The count of the header bytes

`nread` counts the bytes of a head. As long as a run goes on, the count is within the limit
(`pass_counted`, `loop_counted`), and so it is between two calls (`Parser.Reachable.counted`).

Two counters agree when they hold in the same way what one buffer can add to such a count. Then what
the first accepts, the second accepts with the same run (`execute_agrees`). A counter that never
wraps around agrees with the one of the source (`agree_of_exact`), and the one of the source agrees
with it on less than four gigabytes (`agree_exact`).
-/

set_option autoImplicit false
set_option relaxedAutoImplicit false

namespace Cczoe.Http

open Foundations

/-! ### The count stays within the limit -/

namespace Parser

/-- No state counts on its own: it leaves the count or sets it back. -/
theorem react_nread_le (p : Parser) (ch : UInt8) : (p.react ch).parser.nread ≤ p.nread := by
  unfold react
  split
  case h_1 => split_ifs <;> exact le_rfl
  all_goals first
    | exact le_rfl
    | simp only [startRes, expect, versionDigit, versionDot, resHttpEnd, resFirstStatusCode,
        resStatusCode, resStatus, startReq, reqMethod, reqUrl, urlChar, reqHttpStart, reqHttpEnd,
        lineFeed, headerFieldStart, headerValueDiscardWs, headerValueDiscardLws, headerValueStart,
        headerValueLws, headersAlmostDone, headersDone, chunkSizeStart, chunkSize, chunkParameters,
        chunkSizeAlmostDone, chunkDataAlmostDone, chunkDataDone, asserting]
  all_goals (repeat' split) <;> first
    | exact le_rfl
    | exact Nat.zero_le _

/-- A parser that has not counted more than the limit, or has an error. -/
def Counted (p : Parser) : Prop := p.httpErrno = .ok → p.nread ≤ maxHeaderSize

theorem counted_init (type : ParserType) : (Parser.init type).Counted := by
  intro _
  cases type <;> exact Nat.zero_le _

end Parser

/-- What a call leaves. -/
def Returned.Counted {σ : Type} (r : Returned σ) : Prop := r.parser.Counted

/-- A run that has not counted more than the limit. -/
def Exec.Counted {σ : Type} (e : Exec σ) : Prop := e.parser.nread ≤ maxHeaderSize

section Executing

variable {σ : Type} {settings : Callback → σ → ℕ × σ} {len nparsed : ℕ} {at_ : List UInt8}
  {e : Exec σ} {ch : UInt8} {p : Parser} {user : σ}

theorem fail_counted {α : Type} {onValue : α → Prop} {errno : HttpErrno} (hne : errno ≠ .ok) :
    Meets Returned.Counted onValue (e.fail errno nparsed) :=
  fun hok ↦ absurd hok hne

/-- The count is checked. -/
theorem countHeaderSize_counted [HeaderCounter] {count : ℕ} (hok : e.parser.httpErrno = .ok) :
    Meets Returned.Counted (fun e' ↦ e'.Counted ∧ e'.parser.httpErrno = .ok)
      (e.countHeaderSize count nparsed) := by
  unfold Exec.countHeaderSize
  simp only
  split_ifs with hlong
  · exact fail_counted (by decide)
  · exact ⟨not_lt.mp hlong, hok⟩

/-- A report leaves the parser. -/
theorem report_counted {element : Element} {stop : List UInt8} (hok : e.parser.httpErrno = .ok) :
    Meets Returned.Counted (fun e' ↦ e'.parser = e.parser)
      (e.report settings element stop nparsed) :=
  (report_rejects hok).imp_return fun _ hne hok ↦ absurd hok hne

/-- A macro leaves the count. -/
theorem act_counted (act : Act) (hok : e.parser.httpErrno = .ok) :
    Meets Returned.Counted
      (fun e' ↦ e'.parser.nread = e.parser.nread ∧ e'.parser.httpErrno = .ok)
      (e.act settings len at_ act) := by
  have hkept (e' : Exec σ) (hparser : e'.parser = e.parser) :
      e'.parser.nread = e.parser.nread ∧ e'.parser.httpErrno = .ok := by
    rw [hparser]
    exact ⟨rfl, hok⟩
  cases act with
  | mark element => exact hkept _ (Exec.mark_parser element at_)
  | data element consume => exact (report_counted hok).imp hkept
  | notify notification consume =>
    exact ((call_rejects hok notification.errno_ne).imp hkept).imp_return
      fun _ hne hok ↦ absurd hok hne
  | headersComplete =>
    unfold Exec.act Exec.headersComplete
    simp only
    split
    · exact ⟨rfl, hok⟩
    · exact ⟨rfl, hok⟩
    · exact ⟨rfl, hok⟩
    · exact fail_counted (by decide)

theorem acts_counted {acts : List Act} : ∀ {e : Exec σ}, e.parser.httpErrno = .ok →
    Meets Returned.Counted
      (fun e' ↦ e'.parser.nread = e.parser.nread ∧ e'.parser.httpErrno = .ok)
      (acts.foldlM (fun e act ↦ e.act settings len at_ act) e) := by
  induction acts with
  | nil => exact fun hok ↦ ⟨rfl, hok⟩
  | cons act acts ih =>
    intro e hok
    rw [List.foldlM_cons]
    refine (act_counted act hok).bind fun e' he' ↦ (ih he'.2).imp fun e'' he'' ↦ ?_
    exact ⟨he''.1.trans he'.1, he''.2⟩

theorem perform_counted {reaction : Reaction} (hok : reaction.parser.httpErrno = .ok)
    (hnever : reaction.flow ≠ .assertion) (hfail : reaction.flow ≠ .fail .ok)
    (hcounted : reaction.parser.nread ≤ maxHeaderSize) :
    Meets Returned.Counted (Next.Keeps Exec.Counted)
      (e.perform settings len at_ ch reaction) := by
  unfold Exec.perform
  refine (acts_counted hok).bind ?_
  rintro e' ⟨hread, -⟩
  have he' : e'.Counted := by
    unfold Exec.Counted
    rw [hread]
    exact hcounted
  cases hflow : reaction.flow with
  | next => exact he'
  | reexecute => exact he'
  | fail errno =>
    refine fail_counted ?_
    rintro rfl
    exact hfail hflow
  | exit => exact fun _ ↦ he'
  | assertion => exact absurd hflow hnever

theorem headerField_counted [HeaderCounter] (he : e.SoundAt 1)
    (hs : e.parser.state = .headerField) :
    Meets Returned.Counted (Next.Keeps Exec.Counted) (e.headerField settings len at_) := by
  have hname := he.parser.fits
  rw [Parser.StateFits, hs] at hname
  obtain ⟨result, hloop, hresult⟩ := Parser.fieldLoop_sound at_ hname
  unfold Exec.headerField
  rw [hloop]
  cases result with
  | ended after =>
    exact (countHeaderSize_counted (hresult.1.errno.trans he.errno)).bind fun _ hafter ↦ hafter.1
  | stopped stop after =>
    refine (countHeaderSize_counted (hresult.1.errno.trans he.errno)).bind ?_
    rintro e' ⟨hcounted, hok⟩
    split_ifs
    · refine (report_counted (by exact hok)).bind fun last hlast ↦ ?_
      change last.parser.nread ≤ maxHeaderSize
      rw [hlast]
      exact hcounted
    · exact fail_counted (by decide)

theorem headerValue_counted [HeaderCounter] (he : e.SoundAt 1)
    (hs : e.parser.state = .headerValue) :
    Meets Returned.Counted (Next.Keeps Exec.Counted) (e.headerValue settings len at_) := by
  have hvalue := he.parser.fits
  rw [Parser.StateFits, hs] at hvalue
  obtain ⟨result, hloop, hresult⟩ := Parser.valueLoop_sound at_ none e.parser hvalue
  unfold Exec.headerValue
  rw [hloop]
  cases result with
  | failed stop after errno => exact fail_counted hresult.1
  | ended h after =>
    exact (countHeaderSize_counted (hresult.2.errno.trans he.errno)).bind fun _ hafter ↦ hafter.1
  | lineBreak stop h after =>
    have hok := hresult.2.1.errno.trans he.errno
    simp only
    split_ifs
    · refine (report_counted (by exact hok)).bind fun last hlast ↦ ?_
      refine (countHeaderSize_counted ?_).bind fun _ hafter ↦ hafter.1
      rw [hlast]
      exact hok
    · refine (countHeaderSize_counted (by exact hok)).bind ?_
      rintro e' ⟨hcounted, hok'⟩
      refine (report_counted (by exact hok')).bind fun last hlast ↦ ?_
      change last.parser.nread ≤ maxHeaderSize
      rw [hlast]
      exact hcounted

/-- Every way through the `switch` keeps the count within the limit. -/
theorem pass_counted [HeaderCounter] (he : e.SoundAt 1) (hcounted : e.Counted) :
    Meets Returned.Counted (Next.Keeps Exec.Counted) (e.pass settings len at_ ch) := by
  cases hloop : e.parser.state.hasLoop with
  | false =>
    have hsound : (e.parser.react ch).Sound e.parser := Parser.react_sound he.parser hloop
    have hflow := hsound.flow
    rw [pass_eq_perform hloop]
    refine perform_counted (hsound.errno.trans he.errno) ?_ ?_
      ((Parser.react_nread_le _ _).trans hcounted)
    · intro hnever
      rw [hnever] at hflow
      exact hflow
    · intro hfail
      rw [hfail] at hflow
      exact hflow rfl
  | true =>
    unfold Exec.pass
    cases hs : e.parser.state with
    | headerField => exact headerField_counted he hs
    | headerValue => exact headerValue_counted he hs
    | bodyIdentity =>
      rcases le_or_gt e.parser.contentLength at_.length with hle | hlt
      · simp only [bodyIdentity_done he hs hle]
        refine (report_counted (by exact he.errno)).bind fun last hlast ↦ ?_
        change last.parser.nread ≤ maxHeaderSize
        rw [hlast]
        exact hcounted
      · simp only [bodyIdentity_more he hs hlt]
        exact hcounted
    | chunkData =>
      rcases le_or_gt e.parser.contentLength at_.length with hle | hlt
      · simp only [chunkData_done he hs hle]
        exact hcounted
      · simp only [chunkData_more he hs hlt]
        exact hcounted
    | bodyIdentityEof =>
      change (e.mark .body at_).parser.nread ≤ maxHeaderSize
      rw [Exec.mark_parser]
      exact hcounted
    | _ =>
      rw [hs] at hloop
      exact absurd hloop Bool.false_ne_true

/-- The invariant of a run with it. -/
theorem pass_keeps_counted [HeaderCounter] {e : Exec σ} {at_ : List UInt8} {ch : UInt8}
    (hne : at_ ≠ []) (hlen : at_.length ≤ len) (he : e.SoundAt 1) (hcounted : e.Counted) :
    Meets Returned.Counted
      (fun next ↦ Next.Sound at_ e.parser.state.rank next ∧ next.Keeps Exec.Counted)
      (e.pass settings len at_ ch) :=
  ((pass_counted he hcounted).and (pass_meets hne hlen he)).imp fun _ hnext ↦ hnext.symm

/-! ### Runs and calls -/

theorem countByte_counted [HeaderCounter] (he : e.SoundAt 0) (hcounted : e.Counted) :
    Meets Returned.Counted (fun e' ↦ e'.SoundAt 1 ∧ e'.Counted) (e.countByte len at_) := by
  have hcount : Meets Returned.Counted Exec.Counted (e.countByte len at_) := by
    unfold Exec.countByte
    split_ifs
    · exact (countHeaderSize_counted he.errno).imp fun _ hafter ↦ hafter.1
    · exact hcounted
  exact (hcount.and (countByte_meets he)).imp fun _ hafter ↦ hafter.symm

theorem passes_counted [HeaderCounter] {fuel : ℕ} (hne : at_ ≠ []) (hlen : at_.length ≤ len)
    (he : e.SoundAt 1) (hcounted : e.Counted) (hrank : e.parser.state.rank ≤ fuel) :
    Meets Returned.Counted
      (fun after ↦ (after.2.SoundAt 0 ∧ after.2.Counted) ∧ after.1.length < at_.length)
      (passes settings len fuel e at_ ch) :=
  passes_keep pass_keeps_counted hne hlen he hcounted hrank

/-- The loop over a buffer keeps the count within the limit. -/
theorem loop_counted [HeaderCounter] {fuel : ℕ} {data : List UInt8} (hfuel : data.length ≤ fuel)
    (hlen : data.length ≤ len) (he : e.SoundAt 0) (hcounted : e.Counted) :
    Meets Returned.Counted (fun e' ↦ e'.SoundAt 0 ∧ e'.Counted)
      (loop settings len fuel data e) :=
  loop_keep pass_keeps_counted countByte_counted hfuel hlen he hcounted

theorem executeBody_loop [HeaderCounter] {data : List UInt8} (hok : p.httpErrno = .ok)
    (hne : data ≠ []) :
    executeBody settings data p user =
      loop settings data.length data.length data ⟨p, startMarks p.state data, user⟩ >>= fun e ↦
        e.flush settings data.length >>= fun last ↦ last.exit data.length := by
  unfold executeBody
  simp only [hok, ne_eq, not_true_eq_false, if_false, if_neg hne]

theorem execute_eq_some [HeaderCounter] {data : List UInt8} {r : Returned σ} :
    httpParserExecute settings data p user = some r ↔
      executeBody settings data p user = .error (.returned r) := by
  unfold httpParserExecute
  cases hbody : executeBody settings data p user with
  | ok e => simp
  | error stop => cases stop <;> simp

theorem start_sound (data : List UInt8) (user : σ) (hp : p.Resting) (hok : p.httpErrno = .ok) :
    Exec.SoundAt 0 (⟨p, startMarks p.state data, user⟩ : Exec σ) :=
  ⟨hp hok, hok, startMarks_markedFor data p.state⟩

/-- A call keeps the count within the limit. -/
theorem executeBody_counted [HeaderCounter] (data : List UInt8) (user : σ) (hp : p.Resting)
    (hcounted : p.Counted) :
    Meets Returned.Counted (fun _ ↦ False) (executeBody settings data p user) := by
  by_cases hok : p.httpErrno = .ok
  · by_cases hempty : data = []
    · unfold executeBody
      rw [if_neg (not_not_intro hok), if_pos hempty]
      unfold Exec.endOfStream
      split
      · refine Meets.bind ((call_rejects (by exact hok) (by decide)).imp_return
          fun _ hne hok ↦ absurd hok hne) fun e' hparser ↦ ?_
        change e'.parser.Counted
        rw [hparser]
        exact hcounted
      · exact hcounted
      · exact hcounted
      · exact hcounted
      · exact fail_counted (by decide)
    · rw [executeBody_loop hok hempty]
      refine (loop_counted le_rfl le_rfl (start_sound data user hp hok) (hcounted hok)).bind ?_
      rintro e ⟨he, hcount⟩
      refine (flush_keep report_counted he).bind fun last hlast ↦ ?_
      change last.parser.Counted
      rw [hlast]
      exact fun _ ↦ hcount
  · unfold executeBody
    rw [if_pos hok]
    exact hcounted

theorem Parser.Counted.returned [i : HeaderCounter] {data : List UInt8} {r : Returned σ}
    (hp : p.Resting) (hcounted : p.Counted)
    (hcall : httpParserExecute settings data p user = some r) : r.parser.Counted := by
  have hmeets : Meets Returned.Counted (fun _ ↦ False) (executeBody settings data p user) :=
    executeBody_counted data user hp hcounted
  rw [execute_eq_some.mp hcall] at hmeets
  exact hmeets

/-! ### Two counters -/

/-- The second counter holds what a buffer can add to a count as the first does, as far as the first
accepts it. -/
def Agree (len : ℕ) (i j : HeaderCounter) : Prop :=
  ∀ n ≤ maxHeaderSize + len, i.hold n ≤ maxHeaderSize → j.hold n = i.hold n

section Agreeing

variable {i j : HeaderCounter} (hagree : Agree len i j)
include hagree

theorem countHeaderSize_agrees {count : ℕ} (hcounted : e.Counted) (hle : count ≤ len) :
    Follows (Completes len) Eq Eq (@Exec.countHeaderSize σ i e count nparsed)
      (@Exec.countHeaderSize σ j e count nparsed) := by
  unfold Exec.countHeaderSize
  simp only
  by_cases hlong : maxHeaderSize < i.hold (e.parser.nread + count)
  · rw [if_pos hlong]
    refine Rejected.follows (fail_rejected ?_)
    decide
  · rw [hagree _ (Nat.add_le_add hcounted hle) (not_lt.mp hlong)]
    exact follows_refl _

theorem headerField_agrees (he : e.SoundAt 1) (hs : e.parser.state = .headerField)
    (hcounted : e.Counted) (hlen : at_.length ≤ len) :
    Follows (Completes len) Eq Eq (@Exec.headerField σ settings len i e at_)
      (@Exec.headerField σ settings len j e at_) := by
  have hname := he.parser.fits
  rw [Parser.StateFits, hs] at hname
  obtain ⟨result, hloop, -⟩ := Parser.fieldLoop_sound at_ hname
  have hread := fieldLoop_nread hloop
  have hcount (after : Parser) (hafter : after.nread = e.parser.nread) :
      ({ e with parser := after } : Exec σ).Counted := hafter.trans_le hcounted
  unfold Exec.headerField
  rw [hloop]
  cases result with
  | ended after =>
    refine (countHeaderSize_agrees hagree (hcount after hread)
      ((Nat.sub_le _ _).trans hlen)).bind ?_
    rintro e' _ rfl
    exact follows_refl _
  | stopped stop after =>
    refine (countHeaderSize_agrees hagree (hcount after hread)
      ((Nat.sub_le _ _).trans hlen)).bind ?_
    rintro e' _ rfl
    exact follows_refl _

theorem headerValue_agrees (he : e.SoundAt 1) (hs : e.parser.state = .headerValue)
    (hcounted : e.Counted) (hlen : at_.length ≤ len) :
    Follows (Completes len) Eq Eq (@Exec.headerValue σ settings len i e at_)
      (@Exec.headerValue σ settings len j e at_) := by
  have hvalue := he.parser.fits
  rw [Parser.StateFits, hs] at hvalue
  obtain ⟨result, hloop, hresult⟩ := Parser.valueLoop_sound at_ none e.parser hvalue
  unfold Exec.headerValue
  rw [hloop]
  cases result with
  | failed stop after errno => exact (fail_rejected hresult.1).follows
  | ended h after =>
    have hread : after.nread = e.parser.nread := valueLoop_nread hloop trivial
    refine (countHeaderSize_agrees hagree (by exact hread.trans_le hcounted)
      ((Nat.sub_le _ _).trans hlen)).bind ?_
    rintro e' _ rfl
    exact follows_refl _
  | lineBreak stop h after =>
    have hread : after.nread = e.parser.nread := valueLoop_nread hloop hresult.2.2.1
    have hok := hresult.2.1.errno.trans he.errno
    simp only
    split_ifs
    · refine ((follows_refl _).and_meets (report_counted (by exact hok))).bind ?_
      rintro e' _ ⟨rfl, hparser⟩
      refine (countHeaderSize_agrees hagree ?_ ((Nat.sub_le _ _).trans hlen)).bind ?_
      · unfold Exec.Counted
        rw [hparser]
        exact hread.trans_le hcounted
      · rintro e'' _ rfl
        exact follows_refl _
    · refine (countHeaderSize_agrees hagree (by exact hread.trans_le hcounted)
        ((Nat.sub_le _ _).trans hlen)).bind ?_
      rintro e' _ rfl
      exact follows_refl _

theorem pass_agrees (hlen : at_.length ≤ len) (he : e.SoundAt 1) (hcounted : e.Counted) :
    Follows (Completes len) Eq Eq (@Exec.pass σ settings len i e at_ ch)
      (@Exec.pass σ settings len j e at_ ch) := by
  unfold Exec.pass
  split
  case h_1 hs => exact headerField_agrees hagree he hs hcounted hlen
  case h_2 hs => exact headerValue_agrees hagree he hs hcounted hlen
  all_goals exact follows_refl _

theorem passes_agrees {fuel : ℕ} : ∀ {e : Exec σ} {at_ : List UInt8} {ch : UInt8}, at_ ≠ [] →
    at_.length ≤ len → e.SoundAt 1 → e.Counted →
    Follows (Completes len) Eq Eq (@passes σ settings len i fuel e at_ ch)
      (@passes σ settings len j fuel e at_ ch) := by
  induction fuel with
  | zero => exact fun _ _ _ _ ↦ trivial
  | succ fuel ih =>
    intro e at_ ch hne hlen he hcounted
    rw [passes, passes]
    refine ((pass_agrees hagree hlen he hcounted).and_meets
      (pass_keeps_counted hne hlen he hcounted)).bind ?_
    rintro next _ ⟨rfl, hnext, hkept⟩
    cases next with
    | advance rest e' => exact follows_refl _
    | reexecute at_' ch' e' => exact ih hnext.2.2.1 (hnext.2.2.2.trans hlen) hnext.1 hkept

theorem countByte_agrees (hcounted : e.Counted) (hlen : 1 ≤ len) :
    Follows (Completes len) Eq Eq (@Exec.countByte σ len i e at_)
      (@Exec.countByte σ len j e at_) := by
  unfold Exec.countByte
  split_ifs
  · exact countHeaderSize_agrees hagree hcounted hlen
  · exact follows_refl _

/-- The loop over a buffer with each of the counters. -/
theorem loop_agrees {fuel : ℕ} : ∀ {data : List UInt8} {e : Exec σ}, data.length ≤ len →
    e.SoundAt 0 → e.Counted →
    Follows (Completes len) Eq Eq (@loop σ settings len i fuel data e)
      (@loop σ settings len j fuel data e) := by
  induction fuel with
  | zero =>
    intro data e _ _ _
    cases data with
    | nil => exact ⟨e, rfl, rfl⟩
    | cons ch rest => trivial
  | succ fuel ih =>
    intro data e hlen he hcounted
    cases data with
    | nil => exact ⟨e, rfl, rfl⟩
    | cons ch rest =>
      have hpos : 1 ≤ len := (Nat.le_add_left 1 rest.length).trans hlen
      rw [loop, loop]
      refine ((countByte_agrees hagree hcounted hpos).and_meets
        (countByte_counted he hcounted)).bind ?_
      rintro e' _ ⟨rfl, he', hcounted'⟩
      have hne := List.cons_ne_nil ch rest
      refine ((passes_agrees hagree hne hlen he' hcounted').and_meets
        (passes_counted hne hlen he' hcounted' e'.parser.state.rank_le)).bind ?_
      rintro after _ ⟨rfl, ⟨he'', hcounted''⟩, hlt⟩
      exact ih (Nat.le_of_lt_succ (hlt.trans_le (hlen.trans (Nat.le_succ len)))) he'' hcounted''

end Agreeing

/-- A call that takes its whole buffer with one counter makes the same run with another that agrees
with it. -/
theorem execute_agrees {i j : HeaderCounter} {data : List UInt8} (hagree : Agree data.length i j)
    (hp : p.Resting) (hcounted : p.Counted) {r : Returned σ}
    (hcall : @httpParserExecute σ settings i data p user = some r)
    (hr : Completes data.length r) : @httpParserExecute σ settings j data p user = some r := by
  have hbody := (@execute_eq_some σ settings p user i data r).mp hcall
  refine (@execute_eq_some σ settings p user j data r).mpr ?_
  by_cases hok : p.httpErrno = .ok
  · by_cases hempty : data = []
    · rw [← hbody]
      unfold executeBody
      simp only [if_pos hempty]
    · have hrun : Follows (Completes data.length) Eq Eq
          (@executeBody σ settings i data p user) (@executeBody σ settings j data p user) := by
        rw [@executeBody_loop σ settings p user i data hok hempty,
          @executeBody_loop σ settings p user j data hok hempty]
        refine (loop_agrees hagree le_rfl (start_sound data user hp hok) (hcounted hok)).bind ?_
        rintro e _ rfl
        exact follows_refl _
      rw [hbody] at hrun
      obtain ⟨_, hbody', rfl⟩ := hrun hr
      exact hbody'
  · rw [← hbody]
    unfold executeBody
    rw [if_pos hok, if_pos hok]

end Executing

/-! ### The counter of the source -/

/-- A counter as wide as it has to be. -/
@[reducible]
def unboundedCounter : ExactCounter where
  hold n := n
  hold_of_le _ := rfl
  hold_eq _ := rfl

/-- What is accepted without wrapping around, every counter holds as it is. -/
theorem agree_of_exact (len : ℕ) (i : ExactCounter) (j : HeaderCounter) :
    Agree len i.toHeaderCounter j := by
  intro n _ hle
  rw [i.hold_eq] at hle ⊢
  exact j.hold_of_le hle

/-- In a buffer of less than four gigabytes the count does not wrap around. -/
theorem agree_exact {len : ℕ} (hlen : maxHeaderSize + len < 2 ^ 32) (j : ExactCounter) :
    Agree len sourceCounter j.toHeaderCounter := by
  intro n hn _
  rw [j.hold_eq]
  exact (Nat.mod_eq_of_lt (hn.trans_lt hlen)).symm

theorem Parser.Reachable.counted {p : Parser} (hp : p.Reachable) : p.Counted := by
  induction hp with
  | init type => exact Parser.counted_init type
  | execute settings data user hp hcall ih => exact ih.returned hp.resting hcall

end Cczoe.Http
