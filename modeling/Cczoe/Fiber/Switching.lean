import Cczoe.Foundations.GuardedRuns
import Cczoe.Scheduler.Workers

/-!
# Switching between fibers on one thread

`Fiber.cpp` keeps three things in step that are updated in separate statements: the state of each
fiber, the thread-local pointer `t_fiber`, and the contexts that `swapcontext` saves and jumps to. A
`FiberThread` has all three, and where control is. Control follows the contexts: what runs after a
switch is what the target context was saved at, whatever the states and the pointer say.

`Coherent` is the invariant that ties them together. `fibers_switch_safely` draws the conclusions
for every run: the pointer shows the fiber that executes, which is the only one that is RUNNING, no
callback is started twice, and a fiber that is TERM does not run before it is reset.

The main fiber exists at the start. Fibers are numbered as they are made, and so are the callbacks
that are passed to the constructor and to `reset`.
-/

set_option autoImplicit false
set_option relaxedAutoImplicit false

namespace Cczoe.Fiber

open Cczoe.Foundations
open Cczoe.Scheduler (FiberState)

/-- Where a saved context continues. -/
inductive Context
  /-- In the code of the main fiber. -/
  | main
  /-- At the start of `mainFunc`, as `makecontext` sets it up. -/
  | entry
  /-- In a callback that the `mainFunc` of a fiber has called. -/
  | inside (fiber callback : ℕ)
  /-- In the last `yield` of the `mainFunc` of a fiber. -/
  | ended (fiber : ℕ)
  deriving DecidableEq, Repr

/-- A fiber made by the constructor with a callback: `m_state`, `m_cb` and `m_ucp`. -/
structure SubFiber where
  state : FiberState
  cb : Option ℕ
  ucp : Context
  deriving DecidableEq, Repr

/-- Whose code executes. -/
inductive Control
  | main
  /-- A callback, called by the `mainFunc` of a fiber. -/
  | user (fiber callback : ℕ)
  deriving DecidableEq, Repr

/-- A thread with its fibers. `current` is `t_fiber`, with `none` for the main fiber. -/
structure FiberThread where
  subs : List SubFiber
  mainUcp : Context
  current : Option ℕ
  control : Control
  made : ℕ

/-- How the thread stops. -/
inductive Fault
  | assertion (text : String)
  /-- There is no such fiber. -/
  | noFiber
  /-- `mainFunc` calls an empty `m_cb`. -/
  | badFunctionCall
  /-- `mainFunc` returns, without a context to go on with. -/
  | threadExit
  deriving DecidableEq, Repr

/-- What the code that executes does. -/
inductive Action
  | create
  | resume (fiber : ℕ)
  | yieldToReady
  /-- The callback returns. -/
  | callbackReturns
  | reset (fiber : ℕ)
  deriving DecidableEq, Repr

/-- What happens to a fiber. -/
inductive Event
  | quiet
  | started (fiber callback : ℕ)
  | continued (fiber callback : ℕ)
  | finished (fiber : ℕ)
  deriving DecidableEq, Repr

namespace FiberThread

/-- The main fiber has been made. -/
def init : FiberThread := ⟨[], .main, none, .main, 0⟩

/-- The context that `swapcontext` saves for the code that executes. -/
def here (s : FiberThread) : Context :=
  match s.control with
  | .main => .main
  | .user fiber callback => .inside fiber callback

/-- A fiber changes. -/
def setSub (s : FiberThread) (fiber : ℕ) (sub : SubFiber) : FiberThread :=
  { s with subs := s.subs.set fiber sub }

/-- `Fiber::mainFunc` up to the callback, which is that of `GetThis()`. -/
def mainFunc (s : FiberThread) : Except Fault (Event × FiberThread) :=
  match s.current with
  | none => .error .badFunctionCall
  | some fiber =>
    match s.subs[fiber]? with
    | none => .error .noFiber
    | some sub =>
      match sub.cb with
      | none => .error .badFunctionCall
      | some callback =>
        .ok (.started fiber callback, { s with control := .user fiber callback })

/-- Control goes on where a context was saved. -/
def jump (s : FiberThread) : Context → Except Fault (Event × FiberThread)
  | .main => .ok (.quiet, { s with control := .main })
  | .entry => s.mainFunc
  | .inside fiber callback =>
    .ok (.continued fiber callback, { s with control := .user fiber callback })
  | .ended _ => .error .threadExit

/-- `Fiber::resume`. -/
def resume (fiber : ℕ) (s : FiberThread) : Except Fault (Event × FiberThread) :=
  match s.subs[fiber]? with
  | none => .error .noFiber
  | some sub =>
    if s.current = none then
      if sub.state ≠ .term ∧ sub.state ≠ .running then
        ({ s with mainUcp := s.here, current := some fiber }.setSub fiber
          { sub with state := .running }).jump sub.ucp
      else .error (.assertion "m_state != TERM && m_state != RUNNING")
    else .ok (.quiet, s)

/-- `Fiber::yield` of a fiber, called by the code that is saved as `point`. -/
def yield (fiber : ℕ) (point : Context) (s : FiberThread) : Except Fault (Event × FiberThread) :=
  match s.subs[fiber]? with
  | none => .error .noFiber
  | some sub =>
    if sub.state = .running ∨ sub.state = .term then
      let state := if sub.state = .running then .ready else sub.state
      ({ s with current := none }.setSub fiber { sub with state := state, ucp := point }).jump
        s.mainUcp
    else .error (.assertion "m_state == RUNNING || m_state == TERM")

/-- `Fiber::YieldToReady`. The `yield` of the main fiber does nothing. -/
def yieldToReady (s : FiberThread) : Except Fault (Event × FiberThread) :=
  match s.current with
  | none => .ok (.quiet, s)
  | some fiber => s.yield fiber s.here

/-- The end of `Fiber::mainFunc`. -/
def callbackReturns (s : FiberThread) : Except Fault (Event × FiberThread) :=
  match s.control with
  | .main => .ok (.quiet, s)
  | .user fiber _ =>
    match s.subs[fiber]? with
    | none => .error .noFiber
    | some sub =>
      if s.current = none then .error .threadExit
      else
        (((s.setSub fiber { sub with cb := none, state := .term }).yield fiber
          (.ended fiber)).map fun done ↦ (.finished fiber, done.2))

/-- The constructor with a callback. -/
def create (s : FiberThread) : FiberThread :=
  { s with subs := s.subs ++ [⟨.init, some s.made, .entry⟩], made := s.made + 1 }

/-- `Fiber::reset`. -/
def reset (fiber : ℕ) (s : FiberThread) : Except Fault (Event × FiberThread) :=
  match s.subs[fiber]? with
  | none => .error .noFiber
  | some sub =>
    if sub.state = .init ∨ sub.state = .term then
      .ok (.quiet, { s with made := s.made + 1 }.setSub fiber ⟨.init, some s.made, .entry⟩)
    else .error (.assertion "m_state == INIT || m_state == TERM")

/-- One step of the code that executes. -/
def step (action : Action) (s : FiberThread) : Except Fault (Event × FiberThread) :=
  match action with
  | .create => .ok (.quiet, s.create)
  | .resume fiber => s.resume fiber
  | .yieldToReady => s.yieldToReady
  | .callbackReturns => s.callbackReturns
  | .reset fiber => s.reset fiber

/-- When the main fiber executes, `t_fiber` is the main fiber and no other fiber is RUNNING; when
another fiber executes, `t_fiber` points to it and it is the only one that is RUNNING. -/
structure Orderly (s : FiberThread) : Prop where
  atMain : s.control = .main →
    s.current = none ∧ ∀ (fiber : ℕ) sub, s.subs[fiber]? = some sub → sub.state ≠ .running
  inUser : ∀ fiber callback, s.control = .user fiber callback →
    s.current = some fiber ∧ (∃ sub, s.subs[fiber]? = some sub ∧ sub.state = .running) ∧
      ∀ (other : ℕ) sub, s.subs[other]? = some sub → sub.state = .running → other = fiber

/-- The states, the saved contexts and the callbacks belong together. `started` lists the callbacks
that have been started. -/
structure Coherent (started : List ℕ) (s : FiberThread) : Prop extends Orderly s where
  mainSaved : s.control ≠ .main → s.mainUcp = .main
  waiting : ∀ (fiber : ℕ) sub, s.subs[fiber]? = some sub → sub.state = .init →
    sub.ucp = .entry ∧ ∃ callback, sub.cb = some callback ∧ callback < s.made ∧
      callback ∉ started
  paused : ∀ (fiber : ℕ) sub, s.subs[fiber]? = some sub → sub.state = .ready →
    ∃ callback, sub.ucp = .inside fiber callback
  distinct : ∀ (fiber other : ℕ) sub another, s.subs[fiber]? = some sub →
    s.subs[other]? = some another → sub.state = .init → another.state = .init →
    sub.cb = another.cb → fiber = other
  once : started.Nodup
  old : ∀ callback ∈ started, callback < s.made

/-- What a step does to a coherent thread. -/
inductive Move (s : FiberThread) : Action → Event → FiberThread → Prop
  /-- `resume` in a fiber, or `YieldToReady` and the like in the main fiber. -/
  | stay {action : Action} (hreset : ∀ fiber, action ≠ .reset fiber) : Move s action .quiet s
  | create : Move s .create .quiet s.create
  | reset {fiber : ℕ} {sub : SubFiber} (hsub : s.subs[fiber]? = some sub)
      (hstate : sub.state = .init ∨ sub.state = .term) :
      Move s (.reset fiber) .quiet
        ({ s with made := s.made + 1 }.setSub fiber ⟨.init, some s.made, .entry⟩)
  | start {fiber callback : ℕ} {sub : SubFiber} (hcontrol : s.control = .main)
      (hsub : s.subs[fiber]? = some sub) (hstate : sub.state = .init)
      (hcb : sub.cb = some callback) :
      Move s (.resume fiber) (.started fiber callback)
        { s.setSub fiber { sub with state := .running } with
          mainUcp := .main, current := some fiber, control := .user fiber callback }
  | continue {fiber callback : ℕ} {sub : SubFiber} (hcontrol : s.control = .main)
      (hsub : s.subs[fiber]? = some sub) (hstate : sub.state = .ready) :
      Move s (.resume fiber) (.continued fiber callback)
        { s.setSub fiber { sub with state := .running } with
          mainUcp := .main, current := some fiber, control := .user fiber callback }
  | pause {fiber callback : ℕ} {sub : SubFiber} (hcontrol : s.control = .user fiber callback)
      (hsub : s.subs[fiber]? = some sub) :
      Move s .yieldToReady .quiet
        { s.setSub fiber { sub with state := .ready, ucp := .inside fiber callback } with
          mainUcp := .main, current := none, control := .main }
  | finish {fiber callback : ℕ} {sub : SubFiber} (hcontrol : s.control = .user fiber callback)
      (hsub : s.subs[fiber]? = some sub) :
      Move s .callbackReturns (.finished fiber)
        { s.setSub fiber ⟨.term, none, .ended fiber⟩ with
          mainUcp := .main, current := none, control := .main }

variable {s next : FiberThread} {action : Action} {event : Event} {started : List ℕ}

/-- Assumes: the thread is coherent. `resume` starts a fiber that is INIT and continues one that is
READY, or does nothing. -/
theorem Coherent.resume_move (hs : Coherent started s) {fiber : ℕ}
    (hstep : s.resume fiber = .ok (event, next)) : Move s (.resume fiber) event next := by
  rw [FiberThread.resume] at hstep
  cases hsub : s.subs[fiber]? with
  | none =>
    simp only [hsub] at hstep
    cases hstep
  | some sub =>
    simp only [hsub] at hstep
    by_cases hcurrent : s.current = none
    · rw [if_pos hcurrent] at hstep
      have hcontrol : s.control = .main := by
        cases hcontrol : s.control with
        | main => rfl
        | user running callback =>
          have hrunning := (hs.inUser running callback hcontrol).1
          rw [hcurrent] at hrunning
          cases hrunning
      have hhere : s.here = .main := by rw [here, hcontrol]
      have hlength : fiber < s.subs.length := (List.getElem?_eq_some_iff.mp hsub).1
      obtain ⟨state, cb, ucp⟩ := sub
      cases state with
      | init =>
        obtain ⟨hucp, callback, hcb, -⟩ := hs.waiting fiber _ hsub rfl
        cases hucp
        cases hcb
        rw [if_pos ⟨nofun, nofun⟩, jump, mainFunc, setSub, hhere] at hstep
        simp only [List.getElem?_set_self hlength] at hstep
        cases hstep
        exact .start hcontrol hsub rfl rfl
      | ready =>
        obtain ⟨callback, hucp⟩ := hs.paused fiber _ hsub rfl
        cases hucp
        rw [if_pos ⟨nofun, nofun⟩, jump, setSub, hhere] at hstep
        cases hstep
        exact .continue hcontrol hsub rfl
      | running =>
        rw [if_neg fun hstate ↦ hstate.2 rfl] at hstep
        cases hstep
      | term =>
        rw [if_neg fun hstate ↦ hstate.1 rfl] at hstep
        cases hstep
    · rw [if_neg hcurrent] at hstep
      cases hstep
      exact .stay nofun

/-- Assumes: the thread is coherent and executes a fiber. It is RUNNING, and so is nothing else. -/
theorem Coherent.running (hs : Coherent started s) {fiber callback : ℕ}
    (hcontrol : s.control = .user fiber callback) :
    s.current = some fiber ∧ s.mainUcp = .main ∧
      ∃ sub, s.subs[fiber]? = some sub ∧ sub.state = .running := by
  obtain ⟨hcurrent, hrunning, -⟩ := hs.inUser fiber callback hcontrol
  exact ⟨hcurrent, hs.mainSaved (by rw [hcontrol]; nofun), hrunning⟩

/-- Assumes: the thread is coherent. `YieldToReady` pauses the fiber that executes. -/
theorem Coherent.yield_move (hs : Coherent started s)
    (hstep : s.yieldToReady = .ok (event, next)) : Move s .yieldToReady event next := by
  cases hcontrol : s.control with
  | main =>
    rw [yieldToReady, (hs.atMain hcontrol).1] at hstep
    cases hstep
    exact .stay nofun
  | user fiber callback =>
    obtain ⟨hcurrent, hsaved, sub, hsub, hstate⟩ := hs.running hcontrol
    rw [yieldToReady, hcurrent] at hstep
    simp only [FiberThread.yield, hsub, hstate, true_or, if_true, hsaved, jump, here, hcontrol]
      at hstep
    cases hstep
    exact .pause hcontrol hsub

/-- Assumes: the thread is coherent. When its callback returns, a fiber ends. -/
theorem Coherent.finish_move (hs : Coherent started s)
    (hstep : s.callbackReturns = .ok (event, next)) : Move s .callbackReturns event next := by
  cases hcontrol : s.control with
  | main =>
    rw [callbackReturns, hcontrol] at hstep
    cases hstep
    exact .stay nofun
  | user fiber callback =>
    obtain ⟨hcurrent, hsaved, sub, hsub, hstate⟩ := hs.running hcontrol
    have hlength : fiber < s.subs.length := (List.getElem?_eq_some_iff.mp hsub).1
    rw [callbackReturns, hcontrol] at hstep
    simp only [hsub, hcurrent, reduceCtorEq, if_false, FiberThread.yield, setSub,
      List.getElem?_set_self hlength, or_true, if_true, hsaved, jump, List.set_set] at hstep
    cases hstep
    exact .finish hcontrol hsub

/-- Assumes: the thread is coherent. Every step is a move. -/
theorem Coherent.step_move (hs : Coherent started s) (hstep : step action s = .ok (event, next)) :
    Move s action event next := by
  cases action with
  | create =>
    cases hstep
    exact .create
  | resume fiber => exact hs.resume_move hstep
  | yieldToReady => exact hs.yield_move hstep
  | callbackReturns => exact hs.finish_move hstep
  | reset fiber =>
    rw [step, FiberThread.reset] at hstep
    cases hsub : s.subs[fiber]? with
    | none =>
      simp only [hsub] at hstep
      cases hstep
    | some sub =>
      simp only [hsub] at hstep
      by_cases hstate : sub.state = .init ∨ sub.state = .term
      · rw [if_pos hstate] at hstep
        cases hstep
        exact .reset hsub hstate
      · rw [if_neg hstate] at hstep
        cases hstep

/-- The callbacks that an event starts. -/
def startsOf : Event → List ℕ
  | .started _ callback => [callback]
  | _ => []

/-- The fibers of one thread are those of another, but for one that is new or has changed. -/
def Replaces (fiber : ℕ) (sub : SubFiber) (s next : FiberThread) : Prop :=
  ∀ (other : ℕ) found, next.subs[other]? = some found →
    other = fiber ∧ found = sub ∨ other ≠ fiber ∧ s.subs[other]? = some found

theorem replaces_set {fiber : ℕ} {sub : SubFiber} (hsubs : next.subs = s.subs.set fiber sub) :
    Replaces fiber sub s next := by
  intro other found hfound
  rw [hsubs, List.getElem?_set] at hfound
  by_cases hsame : fiber = other
  · rw [if_pos hsame] at hfound
    split_ifs at hfound
    exact Or.inl ⟨hsame.symm, (Option.some.inj hfound).symm⟩
  · rw [if_neg hsame] at hfound
    exact Or.inr ⟨fun heq ↦ hsame heq.symm, hfound⟩

theorem replaces_append {sub : SubFiber} (hsubs : next.subs = s.subs ++ [sub]) :
    Replaces s.subs.length sub s next := by
  intro other found hfound
  rw [hsubs, List.getElem?_append] at hfound
  split_ifs at hfound with hold
  · exact Or.inr ⟨Nat.ne_of_lt hold, hfound⟩
  · have hindex : other - s.subs.length = 0 := by
      have hbound := (List.getElem?_eq_some_iff.mp hfound).1
      rw [List.length_singleton] at hbound
      omega
    rw [hindex] at hfound
    exact Or.inl ⟨by omega, (Option.some.inj hfound).symm⟩

/-- Assumes: one fiber is new or has changed. If it is INIT then with the next callback, if it is
READY then paused in a callback, and at most its own callback has been started. The thread is
coherent when control, `t_fiber` and the main context are in order. -/
theorem Coherent.replace (hs : Coherent started s) {fiber : ℕ} {sub : SubFiber}
    (hreplaces : Replaces fiber sub s next) (horderly : Orderly next)
    (hsaved : next.control ≠ .main → next.mainUcp = .main) (hmade : s.made ≤ next.made)
    (hwaiting : sub.state = .init →
      sub.ucp = .entry ∧ sub.cb = some s.made ∧ s.made < next.made)
    (hpaused : sub.state = .ready → ∃ callback, sub.ucp = .inside fiber callback)
    {more : List ℕ} (hmore : more = [] ∨ ∃ before callback, s.subs[fiber]? = some before ∧
      before.state = .init ∧ before.cb = some callback ∧ more = [callback]) :
    Coherent (started ++ more) next := by
  have hbefore : ∀ callback ∈ more, callback < s.made ∧ callback ∉ started ∧
      ∃ before, s.subs[fiber]? = some before ∧ before.state = .init ∧
        before.cb = some callback := by
    intro callback hmem
    rcases hmore with rfl | ⟨before, begun, hbefore, hinit, hcb, rfl⟩
    · exact absurd hmem List.not_mem_nil
    · obtain ⟨-, _, hsame, hlt, hnot⟩ := hs.waiting fiber before hbefore hinit
      cases hcb.symm.trans hsame
      rw [List.mem_singleton.mp hmem]
      exact ⟨hlt, hnot, before, hbefore, hinit, hcb⟩
  have hold : ∀ callback ∈ started ++ more, callback < s.made := by
    intro callback hmem
    rcases List.mem_append.mp hmem with hstarted | hbegun
    · exact hs.old callback hstarted
    · exact (hbefore callback hbegun).1
  refine ⟨horderly, hsaved, ?_, ?_, ?_, ?_, ?_⟩
  · intro other found hfound hinit
    rcases hreplaces other found hfound with ⟨rfl, rfl⟩ | ⟨hne, hkept⟩
    · obtain ⟨hucp, hcb, hlt⟩ := hwaiting hinit
      exact ⟨hucp, s.made, hcb, hlt, fun hmem ↦ Nat.lt_irrefl _ (hold _ hmem)⟩
    · obtain ⟨hucp, callback, hcb, hlt, hnot⟩ := hs.waiting other found hkept hinit
      refine ⟨hucp, callback, hcb, Nat.lt_of_lt_of_le hlt hmade, ?_⟩
      intro hmem
      rcases List.mem_append.mp hmem with hstarted | hbegun
      · exact hnot hstarted
      · obtain ⟨-, -, before, hthere, hfirst, hsame⟩ := hbefore callback hbegun
        exact hne (hs.distinct other fiber found before hkept hthere hinit hfirst
          (hcb.trans hsame.symm))
  · intro other found hfound hready
    rcases hreplaces other found hfound with ⟨rfl, rfl⟩ | ⟨-, hkept⟩
    · exact hpaused hready
    · exact hs.paused other found hkept hready
  · intro first second one two hone htwo hinit hinit' hcb
    have hfresh : ∀ (other : ℕ) found, s.subs[other]? = some found → found.state = .init →
        found.cb ≠ some s.made := by
      intro other found hkept hwait hsame
      obtain ⟨-, callback, hheld, hlt, -⟩ := hs.waiting other found hkept hwait
      cases hheld.symm.trans hsame
      exact Nat.lt_irrefl _ hlt
    rcases hreplaces first one hone with ⟨rfl, rfl⟩ | ⟨hne, hkept⟩
    · rcases hreplaces second two htwo with ⟨rfl, rfl⟩ | ⟨-, hkept'⟩
      · rfl
      · exact absurd (hcb.symm.trans (hwaiting hinit).2.1) (hfresh second two hkept' hinit')
    · rcases hreplaces second two htwo with ⟨rfl, rfl⟩ | ⟨-, hkept'⟩
      · exact absurd (hcb.trans (hwaiting hinit').2.1) (hfresh first one hkept hinit)
      · exact hs.distinct first second one two hkept hkept' hinit hinit' hcb
  · refine List.nodup_append.mpr ⟨hs.once, ?_, ?_⟩
    · rcases hmore with rfl | ⟨_, callback, -, -, -, rfl⟩
      · exact List.nodup_nil
      · exact List.nodup_singleton callback
    · rintro callback hstarted begun hbegun rfl
      exact (hbefore callback hbegun).2.1 hstarted
  · intro callback hmem
    exact Nat.lt_of_lt_of_le (hold callback hmem) hmade

/-- Assumes: a fiber that is not RUNNING is new or changes to another state that is not RUNNING. -/
theorem Orderly.aside (hs : Orderly s) {fiber : ℕ} {sub : SubFiber}
    (hreplaces : Replaces fiber sub s next) (hstate : sub.state ≠ .running)
    (hbefore : ∀ before, s.subs[fiber]? = some before → before.state ≠ .running)
    (hkept : ∀ other ≠ fiber, next.subs[other]? = s.subs[other]?)
    (hcontrol : next.control = s.control) (hcurrent : next.current = s.current) :
    Orderly next := by
  have hrunning : ∀ (other : ℕ) found, next.subs[other]? = some found → found.state = .running →
      s.subs[other]? = some found := by
    intro other found hfound hrun
    rcases hreplaces other found hfound with ⟨-, rfl⟩ | ⟨-, hold⟩
    · exact absurd hrun hstate
    · exact hold
  refine ⟨?_, ?_⟩
  · intro hmain
    obtain ⟨hnone, hidle⟩ := hs.atMain (hcontrol ▸ hmain)
    refine ⟨hcurrent.trans hnone, ?_⟩
    intro other found hfound hrun
    exact hidle other found (hrunning other found hfound hrun) hrun
  · intro running callback huser
    obtain ⟨hthis, ⟨run, hrun, hstates⟩, honly⟩ := hs.inUser running callback (hcontrol ▸ huser)
    have hne : running ≠ fiber := by
      rintro rfl
      exact hbefore run hrun hstates
    refine ⟨hcurrent.trans hthis, ⟨run, (hkept running hne).trans hrun, hstates⟩, ?_⟩
    intro other found hfound hrunning'
    exact honly other found (hrunning other found hfound hrunning') hrunning'

/-- Assumes: the main fiber executes. Control goes to a fiber, which becomes RUNNING. If its
callback starts with that, then the fiber has been INIT. -/
theorem Coherent.enter (hs : Coherent started s) (hmain : s.control = .main)
    {fiber callback : ℕ} {sub : SubFiber} (hsub : s.subs[fiber]? = some sub) {more : List ℕ}
    (hmore : more = [] ∨ sub.state = .init ∧ sub.cb = some callback ∧ more = [callback]) :
    Coherent (started ++ more) { s.setSub fiber { sub with state := .running } with
      mainUcp := .main, current := some fiber, control := .user fiber callback } := by
  have hreplaces : Replaces fiber { sub with state := .running } s
      { s.setSub fiber { sub with state := .running } with
        mainUcp := .main, current := some fiber, control := .user fiber callback } :=
    replaces_set rfl
  have hlength := (List.getElem?_eq_some_iff.mp hsub).1
  refine hs.replace hreplaces ⟨nofun, ?_⟩ (fun _ ↦ rfl) (Nat.le_refl _) nofun nofun ?_
  · intro running begun huser
    cases huser
    refine ⟨rfl, ⟨_, List.getElem?_set_self hlength, rfl⟩, ?_⟩
    intro other found hfound hrun
    rcases hreplaces other found hfound with ⟨hsame, -⟩ | ⟨-, hold⟩
    · exact hsame
    · exact absurd hrun ((hs.atMain hmain).2 other found hold)
  · rcases hmore with hnone | ⟨hstate, hcb, hbegun⟩
    · exact Or.inl hnone
    · exact Or.inr ⟨sub, callback, hsub, hstate, hcb, hbegun⟩

/-- Assumes: a fiber executes. Control goes back to the main fiber, and the fiber is READY or
TERM. -/
theorem Coherent.leave (hs : Coherent started s) {fiber callback : ℕ}
    (huser : s.control = .user fiber callback) {sub : SubFiber} (hstate : sub.state ≠ .running)
    (hinit : sub.state ≠ .init)
    (hpaused : sub.state = .ready → ∃ callback, sub.ucp = .inside fiber callback) :
    Coherent (started ++ []) { s.setSub fiber sub with
      mainUcp := .main, current := none, control := .main } := by
  have hreplaces : Replaces fiber sub s { s.setSub fiber sub with
      mainUcp := .main, current := none, control := .main } := replaces_set rfl
  refine hs.replace hreplaces ⟨?_, nofun⟩ (fun _ ↦ rfl) (Nat.le_refl _)
    (fun heq ↦ absurd heq hinit) hpaused (Or.inl rfl)
  intro _
  refine ⟨rfl, ?_⟩
  intro other found hfound hrun
  rcases hreplaces other found hfound with ⟨-, rfl⟩ | ⟨hne, hold⟩
  · exact hstate hrun
  · exact hne ((hs.inUser fiber callback huser).2.2 other found hold hrun)

/-- Every move keeps a thread coherent. -/
theorem Coherent.move (hs : Coherent started s) (hmove : Move s action event next) :
    Coherent (started ++ startsOf event) next := by
  cases hmove with
  | stay hreset =>
    show Coherent (started ++ []) s
    rw [List.append_nil]
    exact hs
  | create =>
    have hreplaces : Replaces s.subs.length ⟨.init, some s.made, .entry⟩ s s.create :=
      replaces_append rfl
    have hnone : s.subs[s.subs.length]? = none := List.getElem?_eq_none (Nat.le_refl _)
    refine hs.replace hreplaces (hs.toOrderly.aside hreplaces nofun ?_ ?_ rfl rfl) hs.mainSaved
      (Nat.le_succ _) (fun _ ↦ ⟨rfl, rfl, Nat.lt_succ_self _⟩) nofun (Or.inl rfl)
    · intro before hbefore
      cases hnone.symm.trans hbefore
    · intro other hne
      rw [create, List.getElem?_append]
      split_ifs with hold
      · rfl
      · have hpast : s.subs.length < other := by omega
        rw [List.getElem?_eq_none (Nat.le_of_lt hpast), List.getElem?_eq_none]
        rw [List.length_singleton]
        omega
  | @reset fiber sub hsub hstate =>
    have hreplaces : Replaces fiber ⟨.init, some s.made, .entry⟩ s
        ({ s with made := s.made + 1 }.setSub fiber ⟨.init, some s.made, .entry⟩) :=
      replaces_set rfl
    refine hs.replace hreplaces (hs.toOrderly.aside hreplaces nofun ?_ ?_ rfl rfl) hs.mainSaved
      (Nat.le_succ _) (fun _ ↦ ⟨rfl, rfl, Nat.lt_succ_self _⟩) nofun (Or.inl rfl)
    · intro before hbefore hrun
      cases hsub.symm.trans hbefore
      rw [hrun] at hstate
      rcases hstate with hinit | hterm
      · cases hinit
      · cases hterm
    · intro other hne
      exact List.getElem?_set_ne hne.symm
  | @start fiber callback sub hcontrol hsub hstate hcb =>
    exact hs.enter hcontrol hsub (Or.inr ⟨hstate, hcb, rfl⟩)
  | @«continue» fiber callback sub hcontrol hsub hstate =>
    exact hs.enter hcontrol hsub (Or.inl rfl)
  | @pause fiber callback sub hcontrol hsub =>
    exact hs.leave hcontrol nofun nofun fun _ ↦ ⟨callback, rfl⟩
  | @finish fiber callback sub hcontrol hsub =>
    exact hs.leave hcontrol nofun nofun nofun

/-- Every action is allowed. -/
def Anything (_ : FiberThread) (_ : Action) : Prop := True

/-- The callbacks that are started in a run. -/
def startedIn (trace : List (Action × Event)) : List ℕ :=
  trace.flatMap fun entry ↦ startsOf entry.2

theorem init_coherent : Coherent [] init := by
  have hnone : ∀ (fiber : ℕ) sub, init.subs[fiber]? ≠ some sub := nofun
  refine ⟨⟨?_, nofun⟩, nofun, ?_, ?_, ?_, List.nodup_nil, nofun⟩
  · intro _
    exact ⟨rfl, fun fiber sub hsub ↦ absurd hsub (hnone fiber sub)⟩
  · intro fiber sub hsub
    exact absurd hsub (hnone fiber sub)
  · intro fiber sub hsub
    exact absurd hsub (hnone fiber sub)
  · intro fiber other sub another hsub
    exact absurd hsub (hnone fiber sub)

/-- A run from a coherent thread leads to a coherent thread. -/
theorem Coherent.run (hs : Coherent started s) {trace : List (Action × Event)}
    {final : FiberThread} (hrun : Run step Anything s trace final) :
    Coherent (started ++ startedIn trace) final := by
  let upTo : List (Action × Event) → FiberThread → Prop := fun trace now ↦
    Coherent (started ++ startedIn trace) now
  have hstart : upTo [] s := by
    show Coherent (started ++ []) s
    rw [List.append_nil]
    exact hs
  refine hrun.history_invariant hstart ?_
  intro trace now action event next hnow _ hstep
  have hnext := Coherent.move hnow (Coherent.step_move hnow hstep)
  show Coherent (started ++ startedIn (trace ++ [(action, event)])) next
  rw [startedIn, List.flatMap_append, List.flatMap_singleton, ← List.append_assoc]
  exact hnext

/-- A fiber is TERM. -/
def Ended (fiber : ℕ) (s : FiberThread) : Prop :=
  ∃ sub, s.subs[fiber]? = some sub ∧ sub.state = .term

/-- Assumes: another fiber changes. A fiber that is TERM stays so. -/
theorem Ended.set_other {fiber other : ℕ} (hended : Ended fiber s) (hne : other ≠ fiber)
    {sub : SubFiber} (hsubs : next.subs = s.subs.set other sub) : Ended fiber next := by
  obtain ⟨found, hfound, hterm⟩ := hended
  refine ⟨found, ?_, hterm⟩
  rw [hsubs, List.getElem?_set_ne hne]
  exact hfound

/-- Every move other than its `reset` leaves a fiber TERM. -/
theorem Ended.move {fiber : ℕ} (hended : Ended fiber s) (hs : Coherent started s)
    (hmove : Move s action event next) (hreset : action ≠ .reset fiber) : Ended fiber next := by
  -- A fiber that is resumed is INIT or READY, and one that executes is RUNNING.
  have hother : ∀ (other : ℕ) sub, s.subs[other]? = some sub → sub.state ≠ .term →
      other ≠ fiber := by
    rintro other sub hsub hstate rfl
    obtain ⟨found, hfound, hterm⟩ := hended
    cases hsub.symm.trans hfound
    exact hstate hterm
  have hexecutes : ∀ other callback, s.control = .user other callback → other ≠ fiber := by
    intro other callback hcontrol
    obtain ⟨-, -, run, hrun, hrunning⟩ := hs.running hcontrol
    exact hother other run hrun (by rw [hrunning]; nofun)
  cases hmove with
  | stay => exact hended
  | create =>
    obtain ⟨found, hfound, hterm⟩ := hended
    refine ⟨found, ?_, hterm⟩
    rw [create, List.getElem?_append_left (List.getElem?_eq_some_iff.mp hfound).1]
    exact hfound
  | @reset other sub hsub hstate =>
    have hne : other ≠ fiber := by
      rintro rfl
      exact hreset rfl
    exact hended.set_other hne rfl
  | @start other callback sub hcontrol hsub hstate hcb =>
    exact hended.set_other (hother other sub hsub (by rw [hstate]; nofun)) rfl
  | @«continue» other callback sub hcontrol hsub hstate =>
    exact hended.set_other (hother other sub hsub (by rw [hstate]; nofun)) rfl
  | @pause other callback sub hcontrol hsub =>
    exact hended.set_other (hexecutes other callback hcontrol) rfl
  | @finish other callback sub hcontrol hsub =>
    exact hended.set_other (hexecutes other callback hcontrol) rfl

/-- Assumes: a coherent thread where a fiber is TERM, and a run without a `reset` of the fiber. It
is TERM at the end. -/
theorem Ended.run {fiber : ℕ} (hended : Ended fiber s) (hs : Coherent started s)
    {trace : List (Action × Event)} {final : FiberThread}
    (hrun : Run step Anything s trace final)
    (hreset : ∀ entry ∈ trace, entry.1 ≠ .reset fiber) : Ended fiber final := by
  induction hrun with
  | nil => exact hended
  | snoc hbefore _ hstep ih =>
    have hnow := ih fun entry hmem ↦ hreset entry (List.mem_append_left _ hmem)
    have hcoherent := hs.run hbefore
    refine hnow.move hcoherent (hcoherent.step_move hstep) ?_
    exact hreset _ (List.mem_append_right _ (List.mem_singleton_self _))

/-- Assumes: a run of a thread with its main fiber. `t_fiber` and the states agree with what
executes, no callback has been started twice, and a fiber that is TERM does not execute at any
later point that is reached without a `reset` of the fiber. -/
theorem fibers_switch_safely {trace : List (Action × Event)} {final : FiberThread}
    (hrun : Run step Anything init trace final) :
    Orderly final ∧ (startedIn trace).Nodup ∧
      ∀ fiber, Ended fiber final → ∀ more later, Run step Anything final more later →
        (∀ entry ∈ more, entry.1 ≠ .reset fiber) →
          ∀ callback, later.control ≠ .user fiber callback := by
  have hfinal : Coherent (startedIn trace) final := init_coherent.run hrun
  refine ⟨hfinal.toOrderly, hfinal.once, ?_⟩
  intro fiber hended more later hmore hreset callback hcontrol
  obtain ⟨sub, hsub, hterm⟩ := hended.run hfinal hmore hreset
  obtain ⟨-, -, run, hrunning, hstate⟩ := (hfinal.run hmore).running hcontrol
  cases hsub.symm.trans hrunning
  cases hterm.symm.trans hstate

/-- A fiber is made, runs, pauses, runs on and ends. -/
theorem fibers_switch_safely_one_fiber :
    ∃ trace final, Run step Anything init trace final ∧ startedIn trace = [0] ∧
      Ended 0 final ∧ Orderly final ∧ (startedIn trace).Nodup ∧
      ∀ fiber, Ended fiber final → ∀ more later, Run step Anything final more later →
        (∀ entry ∈ more, entry.1 ≠ .reset fiber) →
          ∀ callback, later.control ≠ .user fiber callback := by
  have hrun : Run step Anything init [] init := Run.nil
  have hmade := hrun.snoc (show Anything _ .create from trivial)
    (show step .create _ = .ok (_, _) from rfl)
  have hbegun := hmade.snoc (show Anything _ (.resume 0) from trivial)
    (show step (.resume 0) _ = .ok (_, _) from rfl)
  have hpaused := hbegun.snoc (show Anything _ .yieldToReady from trivial)
    (show step .yieldToReady _ = .ok (_, _) from rfl)
  have hresumed := hpaused.snoc (show Anything _ (.resume 0) from trivial)
    (show step (.resume 0) _ = .ok (_, _) from rfl)
  have hended := hresumed.snoc (show Anything _ .callbackReturns from trivial)
    (show step .callbackReturns _ = .ok (_, _) from rfl)
  exact ⟨_, _, hended, rfl, ⟨_, rfl, rfl⟩, fibers_switch_safely hended⟩

end FiberThread

end Cczoe.Fiber
