import Cczoe.Foundations.GuardedRuns
import Cczoe.Hook.Wrappers

/-!
# The two views of `O_NONBLOCK`

A tracked socket is non-blocking for the kernel, so that a call inside `do_io` never blocks its
thread, while the user sees the mode that the user asked for. `FdCtx::FdCtx` sets up the two views,
and `fcntl` and `ioctl` keep them. `F_GETFL` always reports what the user asked for last. `fcntl`
leaves the flag of the kernel set, but `ioctl(FIONBIO)` hands its value to the kernel as it is, and
with the value 0 clears the flag: `nonblock_kept_in_every_run`.

The kernel is a parameter. `FlagKernel` states what is documented of it for a socket: `F_GETFL`
returns the status flags, `F_SETFL` and `FIONBIO` set or clear `O_NONBLOCK` as they are told.
-/

set_option autoImplicit false
set_option relaxedAutoImplicit false

namespace Cczoe.Hook

open Cczoe.Foundations

/-- `O_NONBLOCK` is set in some flags. -/
def nonblock (flags : BitVec 32) : Bool := flags.getLsbD 11

theorem nonblock_iff (flags : BitVec 32) : flags &&& oNonblock ≠ 0 ↔ nonblock flags = true := by
  have hbit : oNonblock = BitVec.twoPow 32 11 := by decide
  rw [hbit, BitVec.and_twoPow, nonblock]
  cases flags.getLsbD 11 with
  | true => exact iff_of_true (by decide) rfl
  | false => exact iff_of_false (fun hne ↦ hne rfl) Bool.false_ne_true

theorem nonblock_or (flags : BitVec 32) : nonblock (flags ||| oNonblock) = true := by
  rw [nonblock, BitVec.getLsbD_or, show oNonblock.getLsbD 11 = true by decide, Bool.or_true]

theorem nonblock_and_not (flags : BitVec 32) : nonblock (flags &&& ~~~oNonblock) = false := by
  rw [nonblock, BitVec.getLsbD_and, show (~~~oNonblock).getLsbD 11 = false by decide,
    Bool.and_false]

/-- What the kernel does with the status flags of a socket. -/
structure FlagKernel {κ : Type} (os : Os κ) (fd : ℤ) where
  flags : κ → BitVec 32
  getFl_value : ∀ arg kernel, (os.call (.fcntl fd .getFl arg) kernel).1.value = (flags kernel).toInt
  getFl_flags : ∀ arg kernel, flags (os.call (.fcntl fd .getFl arg) kernel).2 = flags kernel
  setFl : ∀ arg kernel, nonblock (flags (os.call (.fcntl fd .setFl (some arg)) kernel).2) =
    nonblock (arg.setWidth 32)
  nonbio : ∀ arg value kernel, os.readInt kernel arg = some value →
    nonblock (flags (os.call (.ioctl fd fionbio arg) kernel).2) = decide (value ≠ 0)

/-- The calls that read or write the mode of a socket, with the value that `FIONBIO` points to. -/
inductive FlagCall
  | setFl (arg : BitVec 64)
  | getFl
  | nonbio (arg : Pointer) (value : BitVec 32)
  deriving DecidableEq, Repr

/-- The mode that the user asked for last, from the one at the start. -/
def requested (start : Bool) : List (FlagCall × Outcome) → Bool
  | [] => start
  | (.setFl arg, _) :: rest => requested (nonblock (arg.setWidth 32)) rest
  | (.getFl, _) :: rest => requested start rest
  | (.nonbio _ value, _) :: rest => requested (value ≠ 0) rest

theorem requested_snoc (start : Bool) (trace : List (FlagCall × Outcome))
    (entry : FlagCall × Outcome) :
    requested start (trace ++ [entry]) = requested (requested start trace) [entry] := by
  induction trace generalizing start with
  | nil => rfl
  | cons first rest ih =>
    obtain ⟨call, outcome⟩ := first
    cases call with
    | setFl arg => exact ih _
    | getFl => exact ih _
    | nonbio arg value => exact ih _

namespace World

variable {κ : Type} {os : Os κ} {fd : ℤ}

/-- One call on the socket, with hooking on. -/
def flagStep (os : Os κ) (fd : ℤ) (call : FlagCall) (w : World κ) :
    Except Fault (Outcome × World κ) :=
  match call with
  | .setFl arg => w.hook os ⟨true, true⟩ (.fcntl fd .setFl (some arg))
  | .getFl => w.hook os ⟨true, true⟩ (.fcntl fd .getFl none)
  | .nonbio arg _ => w.hook os ⟨true, true⟩ (.ioctl fd fionbio arg)

/-- `FIONBIO` is called with a pointer to its value. -/
def FlagGuard (os : Os κ) (w : World κ) : FlagCall → Prop
  | .nonbio arg value => os.readInt w.kernel arg = some value
  | _ => True

/-- The descriptor is a tracked open socket, and the user mode is known. -/
def Tracks (fd : ℤ) (user : Bool) (w : World κ) : Prop :=
  ∃ number ctx, w.context fd = some (number, ctx) ∧ ctx.isClosed = false ∧ ctx.isSocket = true ∧
    ctx.sysNonblock = true ∧ ctx.userNonblock = user

variable {w : World κ} {user : Bool}

/-- Only the table and the contexts matter for what is tracked. -/
theorem context_congr {other : World κ} (hcontexts : other.contexts = w.contexts)
    (hdata : other.data = w.data) (fd : ℤ) : other.context fd = w.context fd := by
  rw [context, context, hcontexts, hdata]

/-- Assumes: the descriptor has a context. It has the changed one after a change. -/
theorem context_setContext {number : ℕ} {ctx : FdCtx}
    (hcontext : w.context fd = some (number, ctx)) (changed : FdCtx) :
    (w.setContext number changed).context fd = some (number, changed) := by
  obtain ⟨found, hfound, hmapped⟩ := Option.bind_eq_some_iff.mp hcontext
  obtain ⟨value, hvalue, hpair⟩ := Option.map_eq_some_iff.mp hmapped
  cases hpair
  have hlength : number < w.contexts.length := (List.getElem?_eq_some_iff.mp hvalue).1
  rw [context, setContext, hfound, Option.bind_some, List.getElem?_set_self hlength]
  rfl

/-- The hooks handle the mode of an open socket. -/
theorem handled_of_open {ctx : FdCtx} (hopen : ctx.isClosed = false)
    (hsocket : ctx.isSocket = true) : ¬ (ctx.isClosed = true ∨ ctx.isSocket = false) := by
  rw [hopen, hsocket]
  decide

/-- Assumes: the context of a tracked open socket. The mode of the user is noted in it, and the call
goes to the kernel. -/
theorem tracks_noted {number : ℕ} {ctx : FdCtx} (hcontext : w.context fd = some (number, ctx))
    (hopen : ctx.isClosed = false) (hsocket : ctx.isSocket = true)
    (hsys : ctx.sysNonblock = true) (user : Bool) (call : Call) :
    ((w.setContext number { ctx with userNonblock := user }).invoke os call).2.Tracks fd user :=
  ⟨number, _, (context_congr rfl rfl fd).trans (context_setContext hcontext _), hopen, hsocket,
    hsys, rfl⟩

/-- `F_SETFL` notes the mode of the user and leaves the kernel flag set. -/
theorem Tracks.setFl (kernel : FlagKernel os fd) (hw : w.Tracks fd user) (arg : BitVec 64) :
    ∃ outcome next, w.flagStep os fd (.setFl arg) = .ok (outcome, next) ∧
      next.Tracks fd (nonblock (arg.setWidth 32)) ∧ nonblock (kernel.flags next.kernel) = true := by
  obtain ⟨number, ctx, hcontext, hopen, hsocket, hsys, -⟩ := hw
  have hstep : w.flagStep os fd (.setFl arg) =
      (w.setContext number { ctx with userNonblock := nonblock (arg.setWidth 32) }).original os
        (.fcntl fd .setFl (some ((arg.setWidth 32 ||| oNonblock).setWidth 64))) := by
    rw [flagStep, hook]
    unfold fcntl
    rw [if_neg Bool.false_ne_true.symm]
    simp only [fcntlSetFl, hcontext, if_neg (handled_of_open hopen hsocket), hsys, if_true,
      nonblock_iff, Bool.decide_eq_true]
  refine ⟨_, _, hstep, tracks_noted hcontext hopen hsocket hsys _ _, ?_⟩
  rw [invoke]
  simp only [kernel.setFl, BitVec.setWidth_setWidth_of_le _ (show 32 ≤ 64 by decide),
    BitVec.setWidth_eq, nonblock_or]

/-- `F_GETFL` reports the mode of the user and changes nothing. -/
theorem Tracks.getFl (kernel : FlagKernel os fd) (hw : w.Tracks fd user) :
    ∃ value next, w.flagStep os fd .getFl = .ok (.returned value, next) ∧
      nonblock (BitVec.ofInt 32 value) = user ∧ next.Tracks fd user ∧
      kernel.flags next.kernel = kernel.flags w.kernel := by
  obtain ⟨number, ctx, hcontext, hopen, hsocket, hsys, huser⟩ := hw
  obtain ⟨answer, hanswer⟩ : ∃ answer, answer = w.invoke os (.fcntl fd .getFl none) := ⟨_, rfl⟩
  have hafter : answer.2.context fd = some (number, ctx) := by
    rw [hanswer]
    exact (context_congr rfl rfl fd).trans hcontext
  obtain ⟨shown, hshown⟩ : ∃ shown, shown = if ctx.userNonblock then
    BitVec.ofInt 32 answer.1 ||| oNonblock else BitVec.ofInt 32 answer.1 &&& ~~~oNonblock :=
    ⟨_, rfl⟩
  have hstep : w.flagStep os fd .getFl = .ok (.returned shown.toInt, answer.2) := by
    rw [flagStep, hook]
    unfold fcntl
    rw [if_neg Bool.false_ne_true.symm]
    simp only [fcntlGetFl, ← hanswer, hafter, if_neg (handled_of_open hopen hsocket), hshown]
  refine ⟨shown.toInt, answer.2, hstep, ?_, ⟨number, ctx, hafter, hopen, hsocket, hsys, huser⟩, ?_⟩
  · rw [BitVec.ofInt_toInt, hshown, huser]
    cases user with
    | true => exact nonblock_or _
    | false => exact nonblock_and_not _
  · rw [hanswer]
    exact kernel.getFl_flags none w.kernel

/-- Assumes: the pointer leads to the value. `FIONBIO` notes the mode of the user, and hands it to
the kernel. -/
theorem Tracks.nonbio (kernel : FlagKernel os fd) (hw : w.Tracks fd user) {arg : Pointer}
    {value : BitVec 32} (hread : os.readInt w.kernel arg = some value) :
    ∃ outcome next, w.flagStep os fd (.nonbio arg value) = .ok (outcome, next) ∧
      next.Tracks fd (decide (value ≠ 0)) ∧
      nonblock (kernel.flags next.kernel) = decide (value ≠ 0) := by
  obtain ⟨number, ctx, hcontext, hopen, hsocket, hsys, -⟩ := hw
  have hstep : w.flagStep os fd (.nonbio arg value) =
      (w.setContext number { ctx with userNonblock := decide (value ≠ 0) }).original os
        (.ioctl fd fionbio arg) := by
    rw [flagStep, hook, ioctl, if_pos rfl, hread]
    simp only [hcontext, if_neg (handled_of_open hopen hsocket)]
  refine ⟨_, _, hstep, tracks_noted hcontext hopen hsocket hsys _ _, ?_⟩
  exact kernel.nonbio arg value w.kernel hread

/-- A call tells the kernel to clear `O_NONBLOCK`. -/
def Clears : FlagCall → Prop
  | .nonbio _ value => value = 0
  | _ => False

/-- A call of `F_GETFL` reports the mode that the user asked for before. -/
def Reports (before : Bool) (call : FlagCall) (outcome : Outcome) : Prop :=
  call = .getFl → ∃ value, outcome = .returned value ∧ nonblock (BitVec.ofInt 32 value) = before

/-- One call: the user mode is what the user asked for, `F_GETFL` reports it, and the kernel flag is
cleared by `FIONBIO` with 0 only. -/
theorem Tracks.step (kernel : FlagKernel os fd) (hw : w.Tracks fd user) {call : FlagCall}
    {outcome : Outcome} {next : World κ} (hguard : w.FlagGuard os call)
    (hstep : w.flagStep os fd call = .ok (outcome, next)) :
    next.Tracks fd (requested user [(call, outcome)]) ∧ Reports user call outcome ∧
      (Clears call → nonblock (kernel.flags next.kernel) = false) ∧
      (¬ Clears call → nonblock (kernel.flags w.kernel) = true →
        nonblock (kernel.flags next.kernel) = true) := by
  cases call with
  | setFl arg =>
    obtain ⟨_, _, hdone, htracks, hset⟩ := hw.setFl kernel arg
    cases hdone.symm.trans hstep
    exact ⟨htracks, nofun, False.elim, fun _ _ ↦ hset⟩
  | getFl =>
    obtain ⟨value, _, hdone, hreport, htracks, hsame⟩ := hw.getFl kernel
    cases hdone.symm.trans hstep
    refine ⟨htracks, fun _ ↦ ⟨value, rfl, hreport⟩, False.elim, ?_⟩
    intro _ hflag
    rw [hsame]
    exact hflag
  | nonbio arg value =>
    obtain ⟨_, _, hdone, htracks, hflag⟩ := hw.nonbio kernel hguard
    cases hdone.symm.trans hstep
    refine ⟨htracks, nofun, ?_, ?_⟩
    · intro hzero
      rw [hflag]
      exact decide_eq_false (not_not.mpr hzero)
    · intro hnonzero _
      rw [hflag]
      exact decide_eq_true hnonzero

/-- Assumes: the descriptor is a socket. `FdCtx::FdCtx` sets the kernel flag. -/
theorem newFdCtx_nonblock (kernel : FlagKernel os fd) (hsocket : os.fstat w.kernel fd = some true) :
    (w.newFdCtx os fd).1 = { fd := fd, isInit := true, isSocket := true, sysNonblock := true } ∧
      nonblock (kernel.flags (w.newFdCtx os fd).2.kernel) = true := by
  obtain ⟨asked, hasked⟩ : ∃ asked, asked = w.invoke os (.fcntl fd .getFl (some 0)) := ⟨_, rfl⟩
  have hflags : BitVec.ofInt 32 asked.1 = kernel.flags w.kernel := by
    rw [hasked, invoke]
    simp only [kernel.getFl_value, BitVec.ofInt_toInt]
  have hkept : kernel.flags asked.2.kernel = kernel.flags w.kernel := by
    rw [hasked]
    exact kernel.getFl_flags _ _
  rw [newFdCtx, hsocket]
  refine ⟨rfl, ?_⟩
  simp only [← hasked, hflags]
  by_cases hclear : kernel.flags w.kernel &&& oNonblock = 0
  · rw [if_pos hclear, invoke]
    simp only [kernel.setFl, BitVec.setWidth_setWidth_of_le _ (show 32 ≤ 64 by decide),
      BitVec.setWidth_eq, nonblock_or]
  · rw [if_neg hclear, hkept]
    exact (nonblock_iff _).mp hclear

/-- Assumes: a descriptor without a context, which is a socket. `get(fd, true)` makes a context that
tracks it, and the kernel flag is set. -/
theorem tracks_created (kernel : FlagKernel os fd) (hrange : 0 ≤ fd ∧ fd < 2 ^ 31)
    (hentry : w.data[index fd]? = some none) (hsocket : os.fstat w.kernel fd = some true)
    {number : Option ℕ} {start : World κ} (hmade : w.get os (index fd) true = .ok (number, start)) :
    start.Tracks fd false ∧ nonblock (kernel.flags start.kernel) = true := by
  have hindex : ((index fd : ℕ) : ℤ) = fd := by
    rw [index]
    omega
  have hfd : index fd < w.data.length := (List.getElem?_eq_some_iff.mp hentry).1
  obtain ⟨hctx, hflag⟩ := newFdCtx_nonblock kernel hsocket
  rw [get_true_of_none hentry, set, if_neg (Nat.not_le.mpr hfd), if_pos hfd, hindex, hctx] at hmade
  cases hmade
  refine ⟨⟨w.contexts.length, { fd := fd, isInit := true, isSocket := true, sysNonblock := true },
    ?_, rfl, rfl, rfl, rfl⟩, hflag⟩
  rw [context, List.getElem?_set_self hfd]
  simp only [Option.join_some, Option.bind_some, List.getElem?_concat_length, Option.map_some]

variable {start final : World κ} {trace : List (FlagCall × Outcome)}

/-- Assumes: a run on a tracked socket. It is tracked with the mode that the user asked for last. -/
theorem Tracks.run (kernel : FlagKernel os fd) (hstart : start.Tracks fd user)
    (hrun : Run (flagStep os fd) (FlagGuard os) start trace final) :
    final.Tracks fd (requested user trace) := by
  let tracked : List (FlagCall × Outcome) → World κ → Prop := fun trace now ↦
    now.Tracks fd (requested user trace)
  have hfirst : tracked [] start := hstart
  refine hrun.history_invariant hfirst ?_
  intro trace now call outcome next hnow hguard hstep
  have hnext := (Tracks.step kernel hnow hguard hstep).1
  rw [← requested_snoc] at hnext
  exact hnext

/-- Assumes: a run on a tracked socket that starts with the kernel flag set. It ends so when no call
in it tells the kernel to clear the flag. -/
theorem Tracks.run_nonblock (kernel : FlagKernel os fd) (hstart : start.Tracks fd user)
    (hflag : nonblock (kernel.flags start.kernel) = true)
    (hrun : Run (flagStep os fd) (FlagGuard os) start trace final)
    (hnone : ∀ entry ∈ trace, ¬ Clears entry.1) : nonblock (kernel.flags final.kernel) = true := by
  let kept : List (FlagCall × Outcome) → World κ → Prop := fun trace now ↦
    now.Tracks fd (requested user trace) ∧
      ((∀ entry ∈ trace, ¬ Clears entry.1) → nonblock (kernel.flags now.kernel) = true)
  have hfirst : kept [] start := ⟨hstart, fun _ ↦ hflag⟩
  refine (hrun.history_invariant hfirst ?_).2 hnone
  rintro trace now call outcome next ⟨hnow, hkept⟩ hguard hstep
  obtain ⟨htracks, -, -, hkeeps⟩ := hnow.step kernel hguard hstep
  rw [← requested_snoc] at htracks
  refine ⟨htracks, ?_⟩
  intro hall
  refine hkeeps (hall (call, outcome) List.mem_concat_self) (hkept ?_)
  intro entry hmem
  exact hall entry (List.mem_append_left _ hmem)

/-- Assumes: a socket that `get(fd, true)` has just put into the table, and a run of `F_SETFL`,
`F_GETFL` and `FIONBIO` on it with any values. Every `F_GETFL` reports the mode that the user asked
for last; the kernel flag is set at the end of the run if no `FIONBIO` in it had the value 0, and is
not set right after one that had. -/
theorem nonblock_kept_in_every_run (kernel : FlagKernel os fd) (hrange : 0 ≤ fd ∧ fd < 2 ^ 31)
    (hentry : w.data[index fd]? = some none) (hsocket : os.fstat w.kernel fd = some true)
    {number : Option ℕ} (hmade : w.get os (index fd) true = .ok (number, start))
    (hrun : Run (flagStep os fd) (FlagGuard os) start trace final) :
    (∀ before call outcome after, trace = before ++ (call, outcome) :: after →
        Reports (requested false before) call outcome) ∧
      ((∀ entry ∈ trace, ¬ Clears entry.1) → nonblock (kernel.flags final.kernel) = true) ∧
      ∀ before call outcome, trace = before ++ [(call, outcome)] → Clears call →
        nonblock (kernel.flags final.kernel) = false := by
  obtain ⟨htracked, hset⟩ := tracks_created kernel hrange hentry hsocket hmade
  refine ⟨?_, htracked.run_nonblock kernel hset hrun, ?_⟩
  · intro before call outcome after hsplit
    obtain ⟨now, next, hbefore, hguard, hstep, -⟩ := hrun.exists_step hsplit
    exact ((htracked.run kernel hbefore).step kernel hguard hstep).2.1
  · intro before call outcome hsplit hzero
    obtain ⟨now, next, hbefore, hguard, hstep, hrest⟩ := hrun.exists_step hsplit
    rw [hrest.eq_start rfl]
    exact ((htracked.run kernel hbefore).step kernel hguard hstep).2.2.1 hzero

/-- A kernel with one socket, whose state is the status flags. A pointer leads to its own low
half. -/
def socketOs : Os (BitVec 32) where
  call
    | .fcntl _ .getFl _, flags => (⟨flags.toInt, 0⟩, flags)
    | .fcntl _ .setFl (some arg), _ => (⟨0, 0⟩, arg.setWidth 32)
    | .ioctl _ request arg, flags =>
      if request ≠ fionbio then (⟨0, 0⟩, flags)
      else if BitVec.ofNat 32 arg.toNat ≠ 0 then (⟨0, 0⟩, flags ||| oNonblock)
      else (⟨0, 0⟩, flags &&& ~~~oNonblock)
    | _, flags => (⟨0, 0⟩, flags)
  fstat _ _ := some true
  readInt _ arg := some (BitVec.ofNat 32 arg.toNat)
  readTime _ _ := none

/-- It does with the flags what is documented. -/
def socketKernel (fd : ℤ) : FlagKernel socketOs fd where
  flags := id
  getFl_value _ _ := rfl
  getFl_flags _ _ := rfl
  setFl _ _ := rfl
  nonbio arg value flags hread := by
    cases hread
    have hcall : (socketOs.call (.ioctl fd fionbio arg) flags).2 =
        if BitVec.ofNat 32 arg.toNat ≠ 0 then flags ||| oNonblock
        else flags &&& ~~~oNonblock := by
      simp only [socketOs, ne_eq, not_true_eq_false, if_false]
      split_ifs <;> rfl
    rw [id_eq, hcall]
    by_cases hzero : BitVec.ofNat 32 arg.toNat ≠ 0
    · rw [if_pos hzero, nonblock_or, decide_eq_true hzero]
    · rw [if_neg hzero, nonblock_and_not, decide_eq_false hzero]

/-- The user asks for blocking mode with `F_SETFL`; the kernel flag stays set. -/
theorem nonblock_kept_after_setFl :
    ∃ start final trace, (init (0 : BitVec 32)).get socketOs (index 3) true = .ok (some 0, start) ∧
      Run (flagStep socketOs 3) (FlagGuard socketOs) start trace final ∧ trace.length = 2 ∧
      nonblock final.kernel = true := by
  obtain ⟨start, hmade⟩ :
      ∃ start, (init (0 : BitVec 32)).get socketOs (index 3) true = .ok (some 0, start) := ⟨_, rfl⟩
  have hempty : Run (flagStep socketOs 3) (FlagGuard socketOs) start [] start := Run.nil
  have hnone : ∀ entry ∈ ([(.setFl 0, .returned 0), (.getFl, .returned 0)] :
      List (FlagCall × Outcome)), ¬ Clears entry.1 := by
    simp [Clears]
  cases hmade
  have hset := hempty.snoc (show FlagGuard socketOs _ (.setFl 0) from trivial)
    (show flagStep socketOs 3 (.setFl 0) _ = .ok (_, _) from rfl)
  have hget := hset.snoc (show FlagGuard socketOs _ .getFl from trivial)
    (show flagStep socketOs 3 .getFl _ = .ok (_, _) from rfl)
  have hentry : (init (0 : BitVec 32)).data[index 3]? = some none := by decide
  refine ⟨_, _, _, rfl, hget, rfl, ?_⟩
  exact (nonblock_kept_in_every_run (socketKernel 3) (by decide) hentry rfl rfl hget).2.1 hnone

/-- `FIONBIO` with a pointer to 0 clears the kernel flag of a tracked socket. -/
theorem nonblock_cleared_by_nonbio :
    ¬ ∀ (κ : Type) (os : Os κ) (fd : ℤ) (kernel : FlagKernel os fd) (w start final : World κ)
      (number : Option ℕ) (trace : List (FlagCall × Outcome)), 0 ≤ fd ∧ fd < 2 ^ 31 →
      w.data[index fd]? = some none → os.fstat w.kernel fd = some true →
      w.get os (index fd) true = .ok (number, start) →
      Run (flagStep os fd) (FlagGuard os) start trace final →
      nonblock (kernel.flags final.kernel) = true := by
  intro hall
  obtain ⟨start, hmade⟩ :
      ∃ start, (init (0 : BitVec 32)).get socketOs (index 3) true = .ok (some 0, start) := ⟨_, rfl⟩
  have hempty : Run (flagStep socketOs 3) (FlagGuard socketOs) start [] start := Run.nil
  cases hmade
  have hcleared := hempty.snoc
    (show FlagGuard socketOs _ (.nonbio 0x100000000 0) from rfl)
    (show flagStep socketOs 3 (.nonbio 0x100000000 0) _ = .ok (_, _) from rfl)
  have hset := hall (BitVec 32) socketOs 3 (socketKernel 3) (init 0) _ _ _ _ (by decide) (by decide)
    rfl rfl hcleared
  exact absurd hset (by decide)

end World

end Cczoe.Hook
