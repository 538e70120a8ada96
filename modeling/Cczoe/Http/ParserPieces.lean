import Cczoe.Http.ParserCounts
import Cczoe.Http.VendoredParser

/-!
# A message in pieces

`Joining` callbacks do with the fragments of an element one after the other what they do with
the whole of it. With such callbacks it makes no difference how the bytes are distributed over the
calls of `http_parser_execute`: pieces of a buffer that is accepted are accepted one after the
other, and leave the same parser and the same user data (`feed_pieces`). So the text of a request
may be cut anywhere (`feed_text`). Both are proved with a counter that never wraps around
(`feed_cut`) and carried over to the one of the source (`feed_agrees`).

At the end of a piece the open element is reported as far as it is known, and the next piece begins
with a new mark. `Apart` is how the run over the next piece then differs from the run over the whole
buffer, until the element has been reported.
-/

set_option autoImplicit false
set_option relaxedAutoImplicit false

namespace Cczoe.Http

open Foundations

/-- Callbacks that accept an element in fragments: two of them one after the other are the same as
the fragment that they make together. -/
structure Joining {σ : Type} (settings : Callback → σ → ℕ × σ) : Prop where
  accepts : ∀ (element : Element) (p : Parser) (content : List UInt8) (user : σ),
    (settings (element.callback p content) user).1 = 0
  joins : ∀ (element : Element) (p : Parser) (first second : List UInt8) (user : σ),
    settings (element.callback p second) (settings (element.callback p first) user).2 =
      settings (element.callback p (first ++ second)) user

section Executing

variable {σ : Type} {settings : Callback → σ → ℕ × σ}
  {len before len' nparsed nparsed' fuel : ℕ} {second at_ rest : List UInt8} {e e' : Exec σ}
  {p q : Parser} {user : σ} {element : Element} {content : List UInt8} {c ch : UInt8}

/-! ### The elements behind a stop -/

/-- The run over the next piece beside the run over the whole buffer, which has not reported the
part of the open element in front of the piece. -/
def Apart (settings : Callback → σ → ℕ × σ) (second : List UInt8) (e e' : Exec σ) : Prop :=
  e = e' ∨ ∃ (element : Element) (content : List UInt8) (p : Parser) (user : σ),
    p.state.openable = some element ∧ e = ⟨p, markedAt element (content ++ second), user⟩ ∧
      e' = ⟨p, markedAt element second, (settings (element.callback p content) user).2⟩

def Next.Apart (settings : Callback → σ → ℕ × σ) (second : List UInt8) : Next σ → Next σ → Prop
  | .advance rest e, .advance rest' e' => rest = rest' ∧ Http.Apart settings second e e'
  | .reexecute at_ ch e, .reexecute at_' ch' e' =>
    at_ = at_' ∧ ch = ch' ∧ Http.Apart settings second e e'
  | _, _ => False

theorem extend_nil (e : Exec σ) : e.extend [] = e := by
  have hmarks : Option.map (· ++ ([] : List UInt8)) ∘ e.marks = e.marks := by
    funext element
    simp
  unfold Exec.extend
  rw [hmarks]

theorem marked_append_stop {stop : List UInt8} (hle : stop.length ≤ second.length) :
    marked (content ++ second) stop = content ++ marked second stop := by
  unfold marked
  rw [List.length_append, Nat.add_sub_assoc hle, List.take_length_add_append]

theorem callback_statusCode (hstatus : q.statusCode = p.statusCode) (element : Element)
    (content : List UInt8) : element.callback q content = element.callback p content := by
  cases element with
  | status => exact congrArg (Callback.status content) hstatus
  | _ => rfl

theorem report_joining (hsettings : Joining settings) (hok : q.httpErrno = .ok)
    {mark stop : List UInt8} :
    (⟨q, markedAt element mark, user⟩ : Exec σ).report settings element stop nparsed =
      .ok ⟨q, noMarks, (settings (element.callback q (marked mark stop)) user).2⟩ := by
  have hclosed : Function.update (markedAt element mark) element none = noMarks := by
    rw [markedAt, Function.update_idem]
    exact Function.update_eq_self element noMarks
  unfold Exec.report
  simp only [hok, ne_eq, not_true_eq_false, if_false, markedAt, Function.update_self]
  rw [call_ok hok (hsettings.accepts element q _ user)]
  simp only [ok_bind, pure_eq_ok]
  rw [← markedAt, hclosed]

/-- The report of the open element: the run over the whole buffer reports it at once, and the run
over the next piece its rest. -/
theorem report_apart (hsettings : Joining settings) (element : Element)
    (content : List UInt8) (user : σ) (hok : q.httpErrno = .ok)
    (hcallback : element.callback q content = element.callback p content) {stop : List UInt8}
    (hle : stop.length ≤ second.length) :
    ∃ after : σ, ∀ nparsed,
      (⟨q, markedAt element (content ++ second), user⟩ : Exec σ).report settings element stop
        nparsed = .ok ⟨q, noMarks, after⟩ ∧
      (⟨q, markedAt element second, (settings (element.callback p content) user).2⟩ :
        Exec σ).report settings element stop nparsed = .ok ⟨q, noMarks, after⟩ := by
  refine ⟨_, fun nparsed ↦ ⟨report_joining hsettings hok, ?_⟩⟩
  rw [report_joining hsettings hok, marked_append_stop hle, ← hcallback, hsettings.joins]

/-! ### A way through the `switch` -/

theorem mark_markedAt {mark : List UInt8} :
    (⟨p, markedAt element mark, user⟩ : Exec σ).mark element at_ =
      ⟨p, markedAt element mark, user⟩ := by
  refine mark_marked ?_
  simp only [markedAt, Function.update_self, Option.isSome_some]

theorem apart_open (hopen : p.state.openable = some element) :
    Apart settings second ⟨p, markedAt element (content ++ second), user⟩
      ⟨p, markedAt element second, (settings (element.callback p content) user).2⟩ :=
  Or.inr ⟨element, content, p, user, hopen, rfl, rfl⟩

/-- The states without a loop. -/
theorem perform_apart (hsettings : Joining settings) {reaction : Reaction}
    (hopen : p.state.openable = some element) (hle : at_.length ≤ second.length)
    (hsound : reaction.Sound p) (hok : p.httpErrno = .ok) (horderly : reaction.Orderly p) :
    Follows (Completes len) (SameExit [] len') (Next.Apart settings second)
      ((⟨p, markedAt element (content ++ second), user⟩ : Exec σ).perform settings len at_ ch
        reaction)
      ((⟨p, markedAt element second, (settings (element.callback p content) user).2⟩ :
        Exec σ).perform settings len' at_ ch reaction) := by
  obtain ⟨hstatus, hflow, hacts⟩ := horderly.opened element hopen
  have hok' : reaction.parser.httpErrno = .ok := hsound.errno.trans hok
  have hnever : reaction.flow ≠ .fail .ok := by
    intro hfail
    have herrno := hsound.flow
    rw [hfail] at herrno
    exact herrno rfl
  unfold Exec.perform
  rcases hacts with hdata | ⟨hnone, hafter⟩
  · obtain ⟨after, hreport⟩ := report_apart hsettings element content user hok'
      (callback_statusCode hstatus element content) hle
    simp only [hdata, List.foldlM_cons, List.foldlM_nil, Exec.act, (hreport _).1, (hreport _).2,
      ok_bind, pure_eq_ok]
    rcases hflow with hnext | ⟨errno, hfail⟩
    · simp only [hnext]
      exact ⟨_, rfl, rfl, Or.inl rfl⟩
    · simp only [hfail]
      refine (fail_rejected ?_).follows
      rintro rfl
      exact hnever hfail
  · simp only [hnone, List.foldlM_nil, pure_eq_ok, ok_bind]
    rcases hflow with hnext | ⟨errno, hfail⟩
    · simp only [hnext]
      refine ⟨_, rfl, rfl, ?_⟩
      rw [← callback_statusCode hstatus element content]
      exact apart_open (hafter hnext)
    · simp only [hfail]
      refine (fail_rejected ?_).follows
      rintro rfl
      exact hnever hfail

theorem headerField_apart [ExactCounter] (hsettings : Joining settings)
    (hp : p.SoundAt 1) (hok : p.httpErrno = .ok) (hs : p.state = .headerField)
    (hle : at_.length ≤ second.length) :
    Follows (Completes len) (SameExit [] len') (Next.Apart settings second)
      ((⟨p, markedAt .headerField (content ++ second), user⟩ : Exec σ).headerField settings len at_)
      ((⟨p, markedAt .headerField second, (settings (.headerField content) user).2⟩ :
        Exec σ).headerField settings len' at_) := by
  have hname := hp.fits
  rw [Parser.StateFits, hs] at hname
  obtain ⟨result, hloop, hresult⟩ := Parser.fieldLoop_sound at_ hname
  unfold Exec.headerField
  simp only [hloop]
  cases result with
  | ended q =>
    rcases le_or_gt (q.nread + (at_.length - 1)) maxHeaderSize with hshort | hlong
    · simp only
      rw [countHeaderSize_ok (by exact hshort), countHeaderSize_ok (by exact hshort)]
      refine ⟨_, rfl, rfl, ?_⟩
      exact Or.inr ⟨.headerField, content, q.counting (q.nread + (at_.length - 1)), user,
        congrArg ParserState.openable (hresult.1.state.trans hs), rfl, rfl⟩
    · exact (count_rejected hlong).follows
  | stopped stop q =>
    rcases le_or_gt (q.nread + (at_.length - stop.length)) maxHeaderSize with hshort | hlong
    · simp only
      rw [countHeaderSize_ok (by exact hshort), countHeaderSize_ok (by exact hshort)]
      simp only [ok_bind]
      split_ifs
      · obtain ⟨after, hreport⟩ := report_apart (p := p)
          (q := { q with
            state := .headerValueDiscardWs
            nread := q.nread + (at_.length - stop.length) }) hsettings .headerField content user
          (hresult.1.errno.trans hok) rfl (hresult.2.2.2.trans hle)
        have hwhole := (hreport (offset len stop + 1)).1
        have hpiece := (hreport (offset len' stop + 1)).2
        simp only [Element.callback] at hpiece
        rw [hwhole, hpiece]
        exact ⟨_, rfl, rfl, Or.inl rfl⟩
      · refine (fail_rejected ?_).follows
        decide
    · exact (count_rejected hlong).follows

theorem headerValue_apart [ExactCounter] (hsettings : Joining settings)
    (hp : p.SoundAt 1) (hok : p.httpErrno = .ok) (hs : p.state = .headerValue)
    (hle : at_.length ≤ second.length) :
    Follows (Completes len) (SameExit [] len') (Next.Apart settings second)
      ((⟨p, markedAt .headerValue (content ++ second), user⟩ : Exec σ).headerValue settings len at_)
      ((⟨p, markedAt .headerValue second, (settings (.headerValue content) user).2⟩ :
        Exec σ).headerValue settings len' at_) := by
  have hvalue := hp.fits
  rw [Parser.StateFits, hs] at hvalue
  obtain ⟨result, hloop, hresult⟩ := Parser.valueLoop_sound at_ none p hvalue
  unfold Exec.headerValue
  simp only [hloop]
  cases result with
  | failed stop q errno => exact (fail_rejected hresult.1).follows
  | ended h q =>
    rcases le_or_gt (q.nread + (at_.length - 1)) maxHeaderSize with hshort | hlong
    · simp only
      rw [countHeaderSize_ok (by exact hshort), countHeaderSize_ok (by exact hshort)]
      refine ⟨_, rfl, rfl, ?_⟩
      exact Or.inr ⟨.headerValue, content, q.storing (q.nread + (at_.length - 1)) h, user,
        congrArg ParserState.openable (hresult.2.state.trans hs), rfl, rfl⟩
    · exact (count_rejected hlong).follows
  | lineBreak stop h q =>
    have hok' : q.httpErrno = .ok := hresult.2.1.errno.trans hok
    have hstop := hresult.2.2.2.trans hle
    simp only
    split_ifs
    · obtain ⟨after, hreport⟩ := report_apart (p := p)
        (q := { q with state := .headerAlmostDone, headerState := h }) hsettings .headerValue
        content user hok' rfl hstop
      have hwhole := (hreport (offset len stop + 1)).1
      have hpiece := (hreport (offset len' stop + 1)).2
      simp only [Element.callback] at hpiece
      rw [hwhole, hpiece]
      simp only [ok_bind]
      rcases le_or_gt (q.nread + (at_.length - stop.length)) maxHeaderSize with hshort | hlong
      · rw [countHeaderSize_ok (by exact hshort), countHeaderSize_ok (by exact hshort)]
        exact ⟨_, rfl, rfl, Or.inl rfl⟩
      · exact (count_rejected hlong).follows
    · rcases le_or_gt (q.nread + (at_.length - stop.length)) maxHeaderSize with hshort | hlong
      · rw [countHeaderSize_ok (by exact hshort), countHeaderSize_ok (by exact hshort)]
        simp only [ok_bind]
        obtain ⟨after, hreport⟩ := report_apart (p := p)
          (q := { q with
            state := .headerAlmostDone
            headerState := h
            nread := q.nread + (at_.length - stop.length) }) hsettings .headerValue content user
          hok' rfl hstop
        have hwhole := (hreport (offset len stop)).1
        have hpiece := (hreport (offset len' stop)).2
        simp only [Element.callback] at hpiece
        rw [hwhole, hpiece]
        exact ⟨_, rfl, rfl, rfl, Or.inl rfl⟩
      · exact (count_rejected hlong).follows

theorem markedAt_sound {counted : ℕ} (mark : List UInt8) (user : σ) (hp : p.SoundAt counted)
    (hok : p.httpErrno = .ok) (hopen : p.state.openable = some element) :
    (⟨p, markedAt element mark, user⟩ : Exec σ).SoundAt counted := by
  refine ⟨hp, hok, fun other hset ↦ ?_⟩
  by_cases hother : other = element
  · rw [hother]
    exact hopen
  · exact absurd (Function.update_of_ne hother _ _) hset

theorem bodyIdentity_apart (hsettings : Joining settings)
    (hp : p.SoundAt 1) (hok : p.httpErrno = .ok) (hs : p.state = .bodyIdentity)
    (hle : at_.length ≤ second.length) :
    Follows (Completes len) (SameExit [] len') (Next.Apart settings second)
      ((⟨p, markedAt .body (content ++ second), user⟩ : Exec σ).bodyIdentity settings len at_ ch)
      ((⟨p, markedAt .body second, (settings (.body content) user).2⟩ :
        Exec σ).bodyIdentity settings len' at_ ch) := by
  have hopen : p.state.openable = some .body := congrArg ParserState.openable hs
  have hwhole := markedAt_sound (content ++ second) user hp hok hopen
  have hpiece := markedAt_sound second (settings (.body content) user).2 hp hok hopen
  rcases le_or_gt p.contentLength at_.length with hdone | hmore
  · rw [bodyIdentity_done hwhole hs hdone, bodyIdentity_done hpiece hs hdone]
    have hstop : (at_.drop p.contentLength).length ≤ second.length := by
      rw [List.length_drop]
      exact (Nat.sub_le _ _).trans hle
    obtain ⟨after, hreport⟩ := report_apart (p := p)
      (q := { p with contentLength := 0, state := .messageDone }) hsettings .body content user hok
      rfl hstop
    have hwhole' := (hreport (offset len (at_.drop (p.contentLength - 1)))).1
    have hpiece' := (hreport (offset len' (at_.drop (p.contentLength - 1)))).2
    simp only [Element.callback] at hpiece'
    simp only [mark_markedAt]
    rw [hwhole', hpiece']
    exact ⟨_, rfl, rfl, rfl, Or.inl rfl⟩
  · rw [bodyIdentity_more hwhole hs hmore, bodyIdentity_more hpiece hs hmore]
    simp only [mark_markedAt]
    exact ⟨_, rfl, rfl, apart_open (p := { p with contentLength := _ }) hopen⟩

theorem chunkData_apart
    (hp : p.SoundAt 1) (hok : p.httpErrno = .ok) (hs : p.state = .chunkData) :
    Follows (Completes len) (SameExit [] len') (Next.Apart settings second)
      ((⟨p, markedAt .body (content ++ second), user⟩ : Exec σ).chunkData at_)
      ((⟨p, markedAt .body second, (settings (.body content) user).2⟩ :
        Exec σ).chunkData at_) := by
  have hopen : p.state.openable = some .body := congrArg ParserState.openable hs
  have hwhole := markedAt_sound (content ++ second) user hp hok hopen
  have hpiece := markedAt_sound second (settings (.body content) user).2 hp hok hopen
  rcases le_or_gt p.contentLength at_.length with hdone | hmore
  · rw [chunkData_done hwhole hs hdone, chunkData_done hpiece hs hdone]
    simp only [mark_markedAt]
    exact ⟨_, rfl, rfl,
      apart_open (p := { p with contentLength := 0, state := .chunkDataAlmostDone }) rfl⟩
  · rw [chunkData_more hwhole hs hmore, chunkData_more hpiece hs hmore]
    simp only [mark_markedAt]
    exact ⟨_, rfl, rfl, apart_open (p := { p with contentLength := _ }) hopen⟩

/-- One way through the `switch`, with the part of the open element in front of the piece reported
or not. -/
theorem pass_apart [ExactCounter] (hsettings : Joining settings)
    (hp : p.SoundAt 1) (hok : p.httpErrno = .ok) (hopen : p.state.openable = some element)
    (hle : at_.length ≤ second.length) :
    Follows (Completes len) (SameExit [] len') (Next.Apart settings second)
      ((⟨p, markedAt element (content ++ second), user⟩ : Exec σ).pass settings len at_ ch)
      ((⟨p, markedAt element second, (settings (element.callback p content) user).2⟩ :
        Exec σ).pass settings len' at_ ch) := by
  cases hloop : p.state.hasLoop with
  | false =>
    rw [pass_eq_perform (e := ⟨p, markedAt element (content ++ second), user⟩) hloop,
      pass_eq_perform (e := ⟨p, markedAt element second, _⟩) hloop]
    exact perform_apart hsettings hopen hle (Parser.react_sound hp hloop) hok
      (react_orderly hp hloop)
  | true =>
    have helement {opened : Element} (hstate : p.state.openable = some opened) :
        opened = element := Option.some.inj (hstate.symm.trans hopen)
    unfold Exec.pass
    cases hs : p.state with
    | headerField =>
      obtain rfl : .headerField = element := helement (congrArg ParserState.openable hs)
      exact headerField_apart hsettings hp hok hs hle
    | headerValue =>
      obtain rfl : .headerValue = element := helement (congrArg ParserState.openable hs)
      exact headerValue_apart hsettings hp hok hs hle
    | bodyIdentity =>
      obtain rfl : .body = element := helement (congrArg ParserState.openable hs)
      exact bodyIdentity_apart hsettings hp hok hs hle
    | chunkData =>
      obtain rfl : .body = element := helement (congrArg ParserState.openable hs)
      exact chunkData_apart hp hok hs
    | bodyIdentityEof =>
      obtain rfl : .body = element := helement (congrArg ParserState.openable hs)
      simp only [mark_markedAt]
      exact ⟨_, rfl, rfl, apart_open hopen⟩
    | _ =>
      rw [hs] at hloop
      exact absurd hloop Bool.false_ne_true

theorem Next.extend_nil (next : Next σ) : next.extend [] = next := by
  cases next with
  | advance rest e => exact congrArg₂ Next.advance (List.append_nil rest) (Http.extend_nil e)
  | reexecute at_ ch e =>
    exact congrArg₂ (fun at_ e ↦ Next.reexecute at_ ch e) (List.append_nil at_) (Http.extend_nil e)

theorem next_apart_refl (next : Next σ) : next.Apart settings second next := by
  cases next with
  | advance rest e => exact ⟨rfl, Or.inl rfl⟩
  | reexecute at_ ch e => exact ⟨rfl, rfl, Or.inl rfl⟩

/-- One way through the `switch` in both runs. -/
theorem pass_beside [ExactCounter] (hsettings : Joining settings)
    (hlens : len = before + second.length)
    (hne : at_ ≠ []) (hle : at_.length ≤ second.length) (he : e'.SoundAt 1)
    (hread : e'.parser.state = .headerValue → 1 ≤ e'.parser.nread)
    (hapart : Apart settings second e e') :
    Follows (Completes len) (SameExit [] second.length) (Next.Apart settings second)
      (e.pass settings len at_ ch) (e'.pass settings second.length at_ ch) := by
  rcases hapart with rfl | ⟨element, content, p, user, hopen, rfl, rfl⟩
  · have hpass : Follows (Completes len) (SameExit [] second.length)
        (fun next next' ↦ next = next'.extend []) ((e.extend []).pass settings len (at_ ++ []) ch)
        (e.pass settings second.length at_ ch) :=
      pass_extend he hread (Or.inl rfl) hne hle hlens
    rw [extend_nil, List.append_nil] at hpass
    refine hpass.imp ?_
    rintro _ next rfl
    rw [Next.extend_nil]
    exact next_apart_refl next
  · exact pass_apart hsettings he.parser he.errno hopen hle

theorem passes_beside [ExactCounter] (hsettings : Joining settings)
    (hlens : len = before + second.length) :
    ∀ {e e' : Exec σ} {at_ : List UInt8} {ch : UInt8}, at_ ≠ [] → at_.length ≤ second.length →
      e'.SoundAt 1 → e'.Opened → (e'.parser.state = .headerValue → 1 ≤ e'.parser.nread) →
      Apart settings second e e' →
      Follows (Completes len) (SameExit [] second.length)
        (fun after after' ↦ after.1 = after'.1 ∧ Apart settings second after.2 after'.2)
        (passes settings len fuel e at_ ch) (passes settings second.length fuel e' at_ ch) := by
  induction fuel with
  | zero => exact fun _ _ _ _ _ _ ↦ trivial
  | succ fuel ih =>
    intro e e' at_ ch hne hle he hopened hread hapart
    rw [passes, passes]
    refine ((pass_beside hsettings hlens hne hle he hread hapart).and_meets
      (pass_ends hne hle he hopened)).bind ?_
    rintro next next' ⟨hnext, hends, htidy⟩
    cases next' with
    | advance rest' last' =>
      cases next with
      | advance rest last => exact ⟨_, rfl, hnext⟩
      | reexecute at_' ch' last => exact hnext.elim
    | reexecute at_' ch' last' =>
      cases next with
      | advance rest last => exact hnext.elim
      | reexecute at_'' ch'' last =>
        obtain ⟨rfl, rfl, hlast⟩ := hnext
        obtain ⟨hsound, -, hne', hle'⟩ := hends
        refine ih hne' (hle'.trans hle) hsound htidy.1 ?_ hlast
        intro hvalue
        have hloop := htidy.2
        rw [hvalue] at hloop
        exact absurd hloop (by decide)

theorem countByte_beside [ExactCounter] (hapart : Apart settings second e e') :
    Follows (Completes len) (SameExit [] len') (Apart settings second)
      (e.countByte len at_) (e'.countByte len' at_) := by
  rcases hapart with rfl | ⟨element, content, p, user, hopen, rfl, rfl⟩
  · have hcount : Follows (Completes len) (SameExit [] len') (Extends [])
        ((e.extend []).countByte len (at_ ++ [])) (e.countByte len' at_) := countByte_extend at_
    rw [extend_nil, List.append_nil] at hcount
    refine hcount.imp ?_
    rintro _ last rfl
    rw [extend_nil]
    exact Or.inl rfl
  · unfold Exec.countByte
    simp only
    split_ifs
    · rcases le_or_gt (p.nread + 1) maxHeaderSize with hshort | hlong
      · rw [countHeaderSize_ok (by exact hshort), countHeaderSize_ok (by exact hshort)]
        exact ⟨_, rfl, apart_open (p := p.counting (p.nread + 1)) hopen⟩
      · rw [← bind_pure (Exec.countHeaderSize _ _ _)]
        exact (count_rejected hlong).follows
    · exact ⟨_, rfl, apart_open hopen⟩

/-- The loop over a piece in both runs. -/
theorem loop_beside [ExactCounter] (hsettings : Joining settings)
    (hlens : len = before + second.length) :
    ∀ {data : List UInt8} {e e' : Exec σ}, data.length ≤ second.length → e'.SoundAt 0 →
      e'.Opened → Apart settings second e e' →
      Follows (Completes len) (SameExit [] second.length) (Apart settings second)
        (loop settings len fuel data e) (loop settings second.length fuel data e') := by
  induction fuel with
  | zero =>
    intro data e e' hle _ _ hapart
    cases data with
    | nil => exact ⟨_, rfl, hapart⟩
    | cons ch rest => trivial
  | succ fuel ih =>
    intro data e e' hle he hopened hapart
    cases data with
    | nil => exact ⟨_, rfl, hapart⟩
    | cons ch rest =>
      rw [loop, loop]
      have hne := List.cons_ne_nil ch rest
      refine ((countByte_beside hapart).and_meets (countByte_ends he hopened)).bind ?_
      rintro counted counted' ⟨hcounted, hsound, hopened', hread⟩
      refine ((passes_beside hsettings hlens hne hle hsound hopened' hread hcounted).and_meets
        (passes_opened hne hle hsound hopened' counted'.parser.state.rank_le)).bind ?_
      rintro ⟨rest₁, last⟩ ⟨rest₂, last'⟩ ⟨⟨hrest, hlast⟩, ⟨hsound', hopened''⟩, hlt⟩
      obtain rfl : rest₁ = rest₂ := hrest
      exact ih (hlt.le.trans hle) hsound' hopened'' hlast

/-! ### Between two pieces -/

theorem report_unmarked {stop : List UInt8} (hok : e.parser.httpErrno = .ok)
    (hnone : e.marks element = none) : e.report settings element stop nparsed = .ok e := by
  unfold Exec.report
  rw [if_neg (not_not_intro hok), hnone]

theorem reports_unmarked {es : List Element} (hok : e.parser.httpErrno = .ok)
    (hnone : e.marks = noMarks) :
    es.foldlM (fun e element ↦ e.report settings element [] len) e = .ok e := by
  induction es with
  | nil => rfl
  | cons element es ih =>
    rw [List.foldlM_cons, report_unmarked hok (congrFun hnone element), ok_bind, ih]

theorem reports_markedAt {es : List Element} (hsettings : Joining settings)
    (hok : p.httpErrno = .ok) (hmem : element ∈ es) :
    es.foldlM (fun e element ↦ e.report settings element [] len)
        (⟨p, markedAt element content, user⟩ : Exec σ) =
      .ok ⟨p, noMarks, (settings (element.callback p content) user).2⟩ := by
  induction es with
  | nil => exact absurd hmem List.not_mem_nil
  | cons other es ih =>
    rw [List.foldlM_cons]
    by_cases hother : other = element
    · rw [hother, report_joining hsettings hok, ok_bind, reports_unmarked hok rfl, marked,
        List.length_nil, Nat.sub_zero, List.take_length]
    · rw [report_unmarked hok (Function.update_of_ne hother _ _), ok_bind]
      exact ih ((List.mem_cons.mp hmem).resolve_left (Ne.symm hother))

theorem flush_markedAt (hsettings : Joining settings) (he : e.SoundAt 0)
    (hmarks : e.marks = markedAt element content) :
    e.flush settings len =
      .ok ⟨e.parser, noMarks, (settings (element.callback e.parser content) e.user).2⟩ := by
  have hmem : element ∈ elements := by cases element <;> decide
  unfold Exec.flush
  rw [if_neg (not_lt.mpr (markCount_le he.marks))]
  obtain ⟨p, marks, user⟩ := e
  obtain rfl : marks = markedAt element content := hmarks
  exact reports_markedAt hsettings he.errno hmem

/-- At most one element has a mark. -/
theorem Exec.SoundAt.one_mark {counted : ℕ} (he : e.SoundAt counted) :
    e.marks = noMarks ∨ ∃ element mark,
      e.parser.state.openable = some element ∧ e.marks = markedAt element mark := by
  by_cases hnone : e.marks = noMarks
  · exact Or.inl hnone
  · obtain ⟨element, hset⟩ := Function.ne_iff.mp hnone
    have hopen := he.marks element hset
    obtain ⟨mark, hmark⟩ := Option.ne_none_iff_exists'.mp hset
    refine Or.inr ⟨element, mark, hopen, funext fun other ↦ ?_⟩
    by_cases hother : other = element
    · rw [hother, hmark, markedAt, Function.update_self]
    · rw [markedAt, Function.update_of_ne hother]
      by_contra hset'
      exact hother (Option.some.inj ((he.marks other hset').symm.trans hopen))

/-- The states in the body of a message begin a buffer without a mark. -/
theorem openElement_of_openable {s : ParserState} (hopen : s.openable = some element) :
    openElement s = some element ∨
      (s = .bodyIdentity ∨ s = .bodyIdentityEof ∨ s = .chunkData ∨ s = .chunkDataAlmostDone) ∧
        openElement s = none ∧ element = .body := by
  cases s with
  | reqUrl s => cases s <;> exact Or.inl hopen
  | _ => first | exact Or.inl hopen | (cases hopen; simp [openElement])

/-- A state in the body marks its first byte itself, or reports nothing of the piece. -/
theorem loop_reopen [HeaderCounter] (hsettings : Joining settings) (hok : p.httpErrno = .ok)
    (hs : p.state = .bodyIdentity ∨ p.state = .bodyIdentityEof ∨ p.state = .chunkData ∨
      p.state = .chunkDataAlmostDone) (content : List UInt8) (user : σ) :
    loop settings len (fuel + 1) (c :: rest)
        ⟨p, noMarks, (settings (.body content) user).2⟩ =
      loop settings len (fuel + 1) (c :: rest)
        ⟨p, markedAt .body (c :: rest), (settings (.body content) user).2⟩ := by
  have hcount (marks : Element → Option (List UInt8)) (user : σ) :
      (⟨p, marks, user⟩ : Exec σ).countByte len (c :: rest) = .ok ⟨p, marks, user⟩ := by
    refine countByte_body ?_
    rcases hs with hs | hs | hs | hs <;> exact congrArg ParserState.parsingHeader hs
  have hpass : (⟨p, noMarks, (settings (.body content) user).2⟩ : Exec σ).pass settings len
        (c :: rest) c =
      (⟨p, markedAt .body (c :: rest), (settings (.body content) user).2⟩ : Exec σ).pass settings
        len (c :: rest) c := by
    rcases hs with hs | hs | hs | hs
    · unfold Exec.pass
      simp only [hs]
      unfold Exec.bodyIdentity
      rw [mark_noMarks, mark_markedAt]
      rfl
    · unfold Exec.pass
      simp only [hs]
      rw [mark_noMarks, mark_markedAt]
    · unfold Exec.pass
      simp only [hs]
      unfold Exec.chunkData
      rw [mark_noMarks, mark_markedAt]
      rfl
    · rw [pass_eq_perform (by exact congrArg ParserState.hasLoop hs),
        pass_eq_perform (by exact congrArg ParserState.hasLoop hs)]
      have hempty (q : Parser) (hok : q.httpErrno = .ok) (nparsed : ℕ) :
          (⟨q, markedAt .body (c :: rest), (settings (.body content) user).2⟩ : Exec σ).report
              settings .body (c :: rest) nparsed =
            .ok ⟨q, noMarks, (settings (.body content) user).2⟩ := by
        have hjoins := congrArg Prod.snd (hsettings.joins .body q content [] user)
        rw [List.append_nil] at hjoins
        rw [report_empty hok (hsettings.accepts .body q [] _)]
        exact congrArg (fun user ↦ Except.ok (Exec.mk q noMarks user)) hjoins
      have hreact : p.react c = p.chunkDataAlmostDone c := by
        unfold Parser.react
        rw [hs]
      unfold Exec.perform
      rw [hreact]
      unfold Parser.chunkDataAlmostDone Parser.asserting
      split_ifs
      · rfl
      · simp only [List.foldlM_cons, List.foldlM_nil, Exec.act]
        rw [hempty { p with state := .chunkDataDone } hok, report_unmarked (by exact hok) rfl]
      · rfl
  rw [loop, loop, hcount, hcount, ok_bind, ok_bind, passes, passes, hpass]

theorem startMarks_of_closed {s : ParserState} (hclosed : openElement s = none)
    (data : List UInt8) : startMarks s data = noMarks := by
  funext element
  unfold startMarks
  rw [hclosed]
  exact if_neg (Option.some_ne_none element).symm

theorem startMarks_of_open {s : ParserState} (hopen : openElement s = some element)
    (data : List UInt8) : startMarks s data = markedAt element data := by
  funext other
  unfold startMarks
  rw [hopen]
  by_cases hother : other = element
  · rw [hother, if_pos rfl, markedAt, Function.update_self]
  · rw [markedAt, Function.update_of_ne hother]
    exact if_neg fun hsame ↦ hother (Option.some.inj hsame).symm

/-- What is left open is reported behind the loop. -/
theorem flush_ok (hsettings : Joining settings) (he : e.SoundAt 0) :
    ∃ after : σ, ∀ len, e.flush settings len = .ok ⟨e.parser, noMarks, after⟩ := by
  rcases he.one_mark with hnone | ⟨element, mark, hopen, hmark⟩
  · refine ⟨e.user, fun len ↦ ?_⟩
    rw [flush_noMarks he.errno hnone, ← hnone]
  · exact ⟨_, fun len ↦ flush_markedAt hsettings he hmark⟩

/-- The run over the next piece begins beside the run over the whole buffer. -/
theorem resume [HeaderCounter] (c : UInt8) (rest : List UInt8) (hsettings : Joining settings)
    (he : e.SoundAt 0) (hopened : e.Opened) :
    ∃ after : σ,
      (∀ len, e.flush settings len = .ok ⟨e.parser, noMarks, after⟩) ∧
      ∃ e' : Exec σ, Apart settings (c :: rest) (e.extend (c :: rest)) e' ∧ e'.SoundAt 0 ∧
        e'.Opened ∧ ∀ len fuel,
          loop settings len (fuel + 1) (c :: rest)
              ⟨e.parser, startMarks e.parser.state (c :: rest), after⟩ =
            loop settings len (fuel + 1) (c :: rest) e' := by
  rcases he.one_mark with hnone | ⟨element, mark, hopen, hmark⟩
  · obtain ⟨p, marks, user⟩ := e
    obtain rfl : marks = noMarks := hnone
    have hclosed : openElement p.state = none := by
      refine Option.eq_none_iff_forall_ne_some.mpr fun element hopen ↦ ?_
      exact absurd (hopened element hopen) Bool.false_ne_true
    refine ⟨user, fun len ↦ flush_noMarks he.errno rfl, ⟨p, noMarks, user⟩, Or.inl rfl, he,
      hopened, fun len fuel ↦ ?_⟩
    rw [startMarks_of_closed hclosed]
  · obtain ⟨p, marks, user⟩ := e
    obtain rfl : marks = markedAt element mark := hmark
    have hextend : (⟨p, markedAt element mark, user⟩ : Exec σ).extend (c :: rest) =
        ⟨p, markedAt element (mark ++ c :: rest), user⟩ := by
      unfold Exec.extend markedAt
      rw [Function.comp_update]
      rfl
    refine ⟨_, fun len ↦ flush_markedAt hsettings he rfl,
      ⟨p, markedAt element (c :: rest), (settings (element.callback p mark) user).2⟩, ?_,
      markedAt_sound _ _ he.parser he.errno hopen, ?_, fun len fuel ↦ ?_⟩
    · rw [hextend]
      exact apart_open hopen
    · intro other hother
      rcases openElement_of_openable hopen with hsame | ⟨-, hclosed, -⟩
      · obtain rfl : other = element := Option.some.inj (hother.symm.trans hsame)
        simp only [markedAt, Function.update_self, Option.isSome_some]
      · exact absurd (hother.symm.trans hclosed) (Option.some_ne_none other)
    · rcases openElement_of_openable hopen with hsame | ⟨hs, hclosed, rfl⟩
      · rw [startMarks_of_open hsame]
      · rw [startMarks_of_closed hclosed]
        exact loop_reopen hsettings he.errno hs mark user

/-- The end of the last piece and the end of the whole buffer. -/
theorem finish_beside (len len' : ℕ) (hsettings : Joining settings) (he : e'.SoundAt 0)
    (hapart : Apart settings second e e') :
    Follows (Completes len) (SameExit [] len') Eq
      (e.flush settings len >>= fun last ↦ (last.exit len : ParseM σ (Exec σ)))
      (e'.flush settings len' >>= fun last ↦ (last.exit len' : ParseM σ (Exec σ))) := by
  rcases hapart with rfl | ⟨element, content, p, user, hopen, rfl, rfl⟩
  · obtain ⟨after, hflush⟩ := flush_ok hsettings he
    rw [hflush, hflush]
    exact fun _ ↦ ⟨_, rfl, rfl, rfl⟩
  · have hwhole : (⟨p, markedAt element (content ++ second), user⟩ : Exec σ).SoundAt 0 :=
      markedAt_sound _ _ he.parser he.errno hopen
    rw [flush_markedAt hsettings hwhole rfl, flush_markedAt hsettings he rfl, hsettings.joins]
    exact fun _ ↦ ⟨_, rfl, rfl, rfl⟩

/-! ### The calls -/

theorem start_opened (data : List UInt8) :
    (⟨p, startMarks p.state data, user⟩ : Exec σ).Opened := by
  intro element hopen
  change (if openElement p.state = some element then some data else none).isSome = true
  rw [if_pos hopen]
  rfl

theorem start_append (first second : List UInt8) :
    (⟨p, startMarks p.state (first ++ second), user⟩ : Exec σ) =
      (⟨p, startMarks p.state first, user⟩ : Exec σ).extend second := by
  unfold Exec.extend
  congr 1
  funext element
  simp only [startMarks, Function.comp_apply]
  split_ifs <;> rfl

/-- A call on two pieces together that takes them, and one call on each. -/
theorem execute_split [ExactCounter] (hsettings : Joining settings) (hp : p.Resting)
    {first : List UInt8} (hfirst : first ≠ []) {r : Returned σ}
    (hwhole : httpParserExecute settings (first ++ c :: rest) p user = some r)
    (hr : Completes (first ++ c :: rest).length r) :
    ∃ r' : Returned σ, httpParserExecute settings first p user = some r' ∧
      Completes first.length r' ∧
      httpParserExecute settings (c :: rest) r'.parser r'.user =
        some ⟨(c :: rest).length, r.parser, r.user⟩ := by
  have hlen : (first ++ c :: rest).length = first.length + (c :: rest).length :=
    List.length_append
  have hok : p.httpErrno = .ok := by
    by_contra herrno
    have hreturned : httpParserExecute settings (first ++ c :: rest) p user =
        some ⟨0, p, user⟩ := by
      unfold httpParserExecute executeBody
      rw [if_pos herrno]
      rfl
    rw [hwhole] at hreturned
    rw [Option.some.inj hreturned] at hr
    exact herrno hr.1
  have hstart := start_sound first user hp hok
  have hends : Meets (Returned.Sound first.length) (fun e' ↦ e'.SoundAt 0 ∧ e'.Opened)
      (loop settings first.length first.length first ⟨p, startMarks p.state first, user⟩) :=
    loop_opened le_rfl le_rfl hstart (start_opened first)
  rw [execute_eq_some, executeBody_loop hok (List.append_ne_nil_of_left_ne_nil hfirst _),
    start_append] at hwhole
  have hparts : Follows (Completes (first ++ c :: rest).length) Eq Eq
      (loop settings (first ++ c :: rest).length (first ++ c :: rest).length (first ++ c :: rest)
          (Exec.extend (c :: rest) ⟨p, startMarks p.state first, user⟩) >>= fun e ↦
        e.flush settings (first ++ c :: rest).length >>= fun last ↦
          (last.exit (first ++ c :: rest).length : ParseM σ (Exec σ)))
      ((loop settings first.length first.length first ⟨p, startMarks p.state first, user⟩ >>=
          fun e ↦ loop settings (first ++ c :: rest).length (c :: rest).length (c :: rest)
            (e.extend (c :: rest))) >>= fun e ↦
        e.flush settings (first ++ c :: rest).length >>= fun last ↦
          (last.exit (first ++ c :: rest).length : ParseM σ (Exec σ))) := by
    refine (loop_split hlen le_rfl le_rfl le_rfl le_rfl hstart (start_opened first)).bind ?_
    rintro e _ rfl
    exact follows_refl _
  rw [hwhole] at hparts
  obtain ⟨r₁, hparts, rfl⟩ := hparts hr
  cases hloop : loop settings first.length first.length first
      ⟨p, startMarks p.state first, user⟩ with
  | error stop =>
    rw [hloop] at hends hparts
    cases stop with
    | returned result =>
      -- the first piece would be left in the middle of the whole buffer
      cases hparts
      have hle := hends.nparsed_le
      have hlt := hr.2
      rw [hlen, List.length_cons] at hlt
      omega
    | stuck => exact hends.elim
  | ok e =>
    rw [hloop] at hends hparts
    obtain ⟨he, hopened⟩ := hends
    obtain ⟨after, hflush, e', hapart, he', hopened', hreopen⟩ :=
      resume c rest hsettings he hopened
    refine ⟨⟨first.length, e.parser, after⟩, ?_, ⟨he.errno, rfl⟩, ?_⟩
    · rw [execute_eq_some, executeBody_loop hok hfirst, hloop, ok_bind, hflush]
      rfl
    · have hbeside := ((loop_beside hsettings hlen le_rfl he' hopened' hapart).and_meets
        (loop_meets le_rfl le_rfl he')).bind fun last last' hlast ↦
          finish_beside _ (c :: rest).length hsettings hlast.2 hlast.1
      rw [ok_bind] at hparts
      rw [hparts] at hbeside
      obtain ⟨r', hpiece, -, rfl⟩ := hbeside hr
      rw [execute_eq_some, executeBody_loop he.errno (List.cons_ne_nil c rest), List.length_cons,
        hreopen]
      exact hpiece

/-- Calls with one piece after the other, as long as each takes its piece without an error. -/
def feed [HeaderCounter] (settings : Callback → σ → ℕ × σ) :
    List (List UInt8) → Parser → σ → Option (Parser × σ)
  | [], p, user => some (p, user)
  | piece :: pieces, p, user => do
    let r ← httpParserExecute settings piece p user
    if r.parser.httpErrno = .ok ∧ r.nparsed = piece.length then
      feed settings pieces r.parser r.user
    else none

theorem feed_single [HeaderCounter] {piece : List UInt8} {out : Parser × σ} :
    feed settings [piece] p user = some out ↔
      ∃ r, httpParserExecute settings piece p user = some r ∧ Completes piece.length r ∧
        out = (r.parser, r.user) := by
  simp only [feed, Option.bind_eq_bind, Option.bind_eq_some_iff, Completes]
  refine exists_congr fun r ↦ and_congr_right fun _ ↦ ?_
  split_ifs with hr
  · rw [Option.some_inj, eq_comm]
    exact (and_iff_right hr).symm
  · exact iff_of_false not_false fun hcompletes ↦ hr hcompletes.1

/-- The pieces of a buffer that one call takes, one call for each. -/
theorem feed_cut [i : ExactCounter] (hsettings : Joining settings) {pieces : List (List UInt8)}
    (hpieces : pieces ≠ []) (hne : ∀ piece ∈ pieces, piece ≠ []) {p : Parser} (hp : p.Resting)
    {user : σ} {r : Returned σ}
    (hwhole : httpParserExecute settings pieces.flatten p user = some r)
    (hr : Completes pieces.flatten.length r) :
    feed settings pieces p user = some (r.parser, r.user) := by
  induction pieces generalizing p user r with
  | nil => exact absurd rfl hpieces
  | cons first pieces ih =>
    cases pieces with
    | nil =>
      rw [List.flatten_cons, List.flatten_nil, List.append_nil] at hwhole hr
      exact feed_single.mpr ⟨r, hwhole, hr, rfl⟩
    | cons second pieces =>
      have hfirst := hne first List.mem_cons_self
      have hrest : (second :: pieces).flatten ≠ [] := by
        rw [List.flatten_cons]
        exact List.append_ne_nil_of_left_ne_nil
          (hne second (List.mem_cons_of_mem _ List.mem_cons_self)) _
      rw [List.flatten_cons] at hwhole hr
      obtain ⟨c, rest, hcons⟩ := List.exists_cons_of_ne_nil hrest
      rw [hcons] at hwhole hr
      obtain ⟨r', hcall, hr', hcall'⟩ := execute_split hsettings hp hfirst hwhole hr
      rw [feed, hcall]
      simp only [Option.bind_eq_bind, Option.bind_some]
      rw [if_pos ⟨hr'.1, hr'.2⟩]
      rw [← hcons] at hcall'
      have hothers := ih (List.cons_ne_nil _ _)
        (fun piece hpiece ↦ hne piece (List.mem_cons_of_mem _ hpiece)) (hp.returned hcall) hcall'
        ⟨hr.1, rfl⟩
      exact hothers

/-- Pieces that are taken with one counter are taken with another that agrees with it. -/
theorem feed_agrees {i j : HeaderCounter} (hagree : ∀ len, Agree len i j)
    {pieces : List (List UInt8)} {out : Parser × σ} :
    ∀ {p : Parser} {user : σ}, p.Resting → p.Counted →
      @feed σ i settings pieces p user = some out →
      @feed σ j settings pieces p user = some out := by
  induction pieces with
  | nil => exact fun _ _ hfeed ↦ hfeed
  | cons piece pieces ih =>
    intro p user hp hcounted hfeed
    simp only [feed, Option.bind_eq_bind, Option.bind_eq_some_iff] at hfeed ⊢
    obtain ⟨r, hcall, hfeed⟩ := hfeed
    split_ifs at hfeed with hr
    refine ⟨r, execute_agrees (hagree _) hp hcounted hcall hr, ?_⟩
    rw [if_pos hr]
    exact ih (hp.returned (i := i) hcall) (hcounted.returned (i := i) hp hcall) hfeed

/-- Assumes: callbacks that take an element in fragments as they take the whole of it, a parser that
calls lead to and a buffer so short that the count of header bytes does not wrap around in it.
Pieces of a buffer that one call takes are taken by one call each, and leave the same parser and the
same user data, wherever the buffer is cut. -/
theorem feed_pieces (hsettings : Joining settings) {pieces : List (List UInt8)}
    (hpieces : pieces ≠ []) (hne : ∀ piece ∈ pieces, piece ≠ [])
    (hlen : maxHeaderSize + pieces.flatten.length < 2 ^ 32) {p : Parser} (hp : p.Reachable)
    {user : σ} {out : Parser × σ} (hwhole : feed settings [pieces.flatten] p user = some out) :
    feed settings pieces p user = some out := by
  obtain ⟨r, hcall, hr, rfl⟩ := feed_single.mp hwhole
  have hexact := execute_agrees (agree_exact hlen unboundedCounter) hp.resting hp.counted hcall hr
  exact feed_agrees (fun len ↦ agree_of_exact len unboundedCounter sourceCounter) hp.resting
    hp.counted (feed_cut (i := unboundedCounter) hsettings hpieces hne hp.resting hexact hr)

theorem feed_text_exact [i : ExactCounter] (hsettings : Joining settings) {m : RequestMessage}
    (hm : m.WellFormed) (hfits : m.Fits) (hclear : m.Clear) {pieces : List (List UInt8)}
    (htext : pieces.flatten = m.text) (hne : ∀ piece ∈ pieces, piece ≠ []) {user final : σ}
    (hcalls : runCallbacks settings m.callbacks user = some final) :
    ∃ p : Parser, p.httpErrno = .ok ∧
      feed settings pieces (Parser.init .request) user = some (p, final) := by
  obtain ⟨p, hcall, hok⟩ :=
    execute_of_finishes (text_ne_nil m) (leads_finish hm hfits hclear hcalls)
  have hpieces : pieces ≠ [] := by
    rintro rfl
    exact text_ne_nil m htext.symm
  rw [← htext] at hcall
  exact ⟨p, hok,
    feed_cut hsettings hpieces hne (Parser.resting_init .request) hcall ⟨hok, rfl⟩⟩

/-- Assumes: callbacks that take an element in fragments as they take the whole of it, a well-formed
request that the parser has room for and that has no header name with `Transfer-Encoding` at its
beginning, and callbacks that accept the parts of the request. However the text of the request is
cut, a new parser takes all pieces, and they leave the user data that the callbacks of the parts
leave. -/
theorem feed_text (hsettings : Joining settings) {m : RequestMessage} (hm : m.WellFormed)
    (hfits : m.Fits) (hclear : m.Clear) {pieces : List (List UInt8)}
    (htext : pieces.flatten = m.text) (hne : ∀ piece ∈ pieces, piece ≠ []) {user final : σ}
    (hcalls : runCallbacks settings m.callbacks user = some final) :
    ∃ p : Parser, p.httpErrno = .ok ∧
      feed settings pieces (Parser.init .request) user = some (p, final) := by
  obtain ⟨p, hok, hfeed⟩ :=
    feed_text_exact (i := unboundedCounter) hsettings hm hfits hclear htext hne hcalls
  exact ⟨p, hok, feed_agrees (fun len ↦ agree_of_exact len unboundedCounter sourceCounter)
    (Parser.resting_init .request) (Parser.counted_init .request) hfeed⟩

end Executing

/-- A fragment of an element behind another one. -/
def Callback.join : Callback → Callback → Option Callback
  | .headerField first, .headerField second => some (.headerField (first ++ second))
  | .headerValue first, .headerValue second => some (.headerValue (first ++ second))
  | .url first, .url second => some (.url (first ++ second))
  | .body first, .body second => some (.body (first ++ second))
  | .status first _, .status second statusCode => some (.status (first ++ second) statusCode)
  | _, _ => none

/-- Callbacks that keep what they are called with, the last first and the fragments of an element as
one. -/
def recordJoined (callback : Callback) (calls : List Callback) : ℕ × List Callback :=
  match calls with
  | [] => (0, [callback])
  | last :: others =>
    match last.join callback with
    | some joined => (0, joined :: others)
    | none => (0, callback :: last :: others)

theorem recordJoined_joining : Joining recordJoined where
  accepts element p content user := by
    unfold recordJoined
    split
    · rfl
    · split <;> rfl
  joins element p first second user := by
    cases user with
    | nil => cases element <;> rfl
    | cons last others =>
      cases element <;> cases last <;>
        simp [recordJoined, Callback.join, Element.callback, List.append_assoc]

theorem feed_pieces_get :
    (feed recordJoined [ascii "GET /in", ascii "dex HTTP/1.1\x0d\x0a\x0d\x0a"]
        (Parser.init .request) []).map Prod.snd =
      some [.messageComplete, .headersComplete 1 1 .GET, .url (ascii "/index"), .messageBegin] := by
  have hwhole : (feed recordJoined [[ascii "GET /in",
      ascii "dex HTTP/1.1\x0d\x0a\x0d\x0a"].flatten] (Parser.init .request) []).isSome = true := by
    rfl
  obtain ⟨out, hout⟩ := Option.isSome_iff_exists.mp hwhole
  rw [feed_pieces recordJoined_joining (by decide) (by decide) (by decide) (.init .request) hout,
    ← hout]
  rfl

theorem feed_text_small :
    ∃ (p : Parser) (final : List Callback),
      runCallbacks recordJoined smallRequest.message.callbacks [] = some final ∧
        p.httpErrno = .ok ∧
        feed recordJoined [smallRequest.message.text.take 7, smallRequest.message.text.drop 7]
          (Parser.init .request) [] = some (p, final) := by
  have hcalled : (runCallbacks recordJoined smallRequest.message.callbacks []).isSome = true := by
    rfl
  obtain ⟨final, hfinal⟩ := Option.isSome_iff_exists.mp hcalled
  have hcut : [smallRequest.message.text.take 7, smallRequest.message.text.drop 7].flatten =
      smallRequest.message.text := by
    rw [List.flatten_cons, List.flatten_singleton, List.take_append_drop]
  obtain ⟨p, hok, hfeed⟩ := feed_text recordJoined_joining
    smallRequest_dumpable.wellFormed_message smallRequest_sendable.fits
    smallRequest_sendable.clear_message hcut (by decide) hfinal
  exact ⟨p, final, hfinal, hok, hfeed⟩

end Cczoe.Http
