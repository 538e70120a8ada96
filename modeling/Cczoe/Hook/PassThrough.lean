import Cczoe.Hook.Wrappers

/-!
# Hooks that are switched off

A program that never enables hooking should see the original functions. Most hooks pass a call
through when `t_hookEnable` is false. `fcntl` drops its optional argument, `accept` keeps a context
for every new descriptor, and `ioctl` reads its argument and notes the mode of a socket whatever
`t_hookEnable` says. `disabled_hook_passes_iff` says for every call when it is passed through: with
one call of the original function, the same arguments, its result, and nothing else changed.
-/

set_option autoImplicit false
set_option relaxedAutoImplicit false

namespace Cczoe.Hook

namespace World

variable {κ : Type} {os : Os κ} {thread : Thread} {w : World κ}

/-- A hook returns the result of the original function after one call of it with the same arguments,
and does nothing else: the kernel and `errno` are as that call leaves them, and the descriptor table
is as before. -/
def PassesThrough (os : Os κ) (thread : Thread) (call : Call) (w : World κ) : Prop :=
  ∃ next, w.hook os thread call = .ok (.returned (os.call call w.kernel).1.value, next) ∧
    next.calls = w.calls ++ [call] ∧ next.kernel = (os.call call w.kernel).2 ∧
    next.errno = (os.call call w.kernel).1.errno ∧ next.contexts = w.contexts ∧
    next.data = w.data ∧ next.cancelled = w.cancelled

/-- That is, the hook is the call of the original function. -/
theorem passesThrough_iff {call : Call} :
    w.PassesThrough os thread call ↔ w.hook os thread call = w.original os call := by
  constructor
  · rintro ⟨next, hhook, hcalls, hkernel, herrno, hcontexts, hdata, hcancelled⟩
    have hnext : next = (w.invoke os call).2 := by
      ext1
      · exact hkernel
      · exact herrno
      · exact hcalls
      · exact hcancelled
      · exact hcontexts
      · exact hdata
    rw [hhook, hnext]
    rfl
  · intro hhook
    exact ⟨_, hhook, rfl, rfl, rfl, rfl, rfl, rfl⟩

/-- When a call is passed through although hooking is off. -/
def Untouched (os : Os κ) (w : World κ) : Call → Prop
  | .fcntl _ _ arg => arg = none
  | .accept fd addr addrlen =>
    let accepted := (os.call (.accept fd addr addrlen) w.kernel).1.value
    accepted < 0 ∨ ∃ number, w.data[index accepted]? = some (some number)
  | .ioctl fd request arg =>
    request = fionbio → ∃ value, os.readInt w.kernel arg = some value ∧
      ∀ number ctx, w.context fd = some (number, ctx) → ctx.isClosed = false →
        ctx.isSocket = true → ctx.userNonblock = decide (value ≠ 0)
  | _ => True

/-- The context of a descriptor is in the list of contexts. -/
theorem contexts_of_context {fd : ℤ} {number : ℕ} {ctx : FdCtx}
    (hcontext : w.context fd = some (number, ctx)) : w.contexts[number]? = some ctx := by
  obtain ⟨found, -, hmapped⟩ := Option.bind_eq_some_iff.mp hcontext
  obtain ⟨value, hvalue, hpair⟩ := Option.map_eq_some_iff.mp hmapped
  cases hpair
  exact hvalue

/-- Assumes: two worlds differ in the contexts. A call of the original function keeps them apart. -/
theorem original_ne {other : World κ} {call : Call} (hne : other.contexts ≠ w.contexts) :
    other.original os call ≠ w.original os call := by
  intro hsame
  have hpair := Except.ok.inj hsame
  exact hne (congrArg (fun result ↦ result.2.contexts) hpair)

theorem doIo_disabled (hdisabled : thread.hookEnable = false) (fd : ℤ) (call : Call)
    (event : Scheduler.Event) (soTimeout : ℤ) :
    w.doIo os thread fd call event soTimeout = w.original os call := by
  rw [doIo, if_pos hdisabled]

/-- `fcntl` passes a call through when it has no optional argument. -/
theorem fcntl_passes_iff (hdisabled : thread.hookEnable = false) (fd : ℤ) (cmd : FcntlCmd)
    (arg : Option (BitVec 64)) :
    w.fcntl os thread fd cmd arg = w.original os (.fcntl fd cmd arg) ↔ arg = none := by
  unfold fcntl
  rw [if_pos hdisabled]
  constructor
  · intro hsame
    have hcalls := congrArg (fun result ↦ result.2.calls) (Except.ok.inj hsame)
    have hlast := List.append_cancel_left hcalls
    cases hlast
    rfl
  · intro hnone
    rw [hnone]

/-- `accept` passes a call through when it fails, or when the new descriptor has a context. -/
theorem accept_passes_iff (hdisabled : thread.hookEnable = false) (fd : ℤ)
    (addr addrlen : Pointer) :
    w.accept os thread fd addr addrlen = w.original os (.accept fd addr addrlen) ↔
      w.Untouched os (.accept fd addr addrlen) := by
  obtain ⟨accepted, haccepted⟩ :
      ∃ accepted, accepted = w.invoke os (.accept fd addr addrlen) := ⟨_, rfl⟩
  have horiginal : w.original os (.accept fd addr addrlen) =
      .ok (.returned accepted.1, accepted.2) := by rw [original, haccepted]
  have hdata : accepted.2.data = w.data := by rw [haccepted, invoke]
  have hvalue : (os.call (.accept fd addr addrlen) w.kernel).1.value = accepted.1 := by
    rw [haccepted, invoke]
  rw [accept, doIo_disabled hdisabled, horiginal, Untouched, hvalue, ← hdata]
  by_cases hfailed : accepted.1 < 0
  · refine iff_of_true ?_ (Or.inl hfailed)
    simp only [if_neg (not_le.mpr hfailed)]
  · simp only [if_pos (not_lt.mp hfailed)]
    rw [or_iff_right hfailed]
    cases hentry : accepted.2.data[index accepted.1]? with
    | none =>
      rw [get_true_past_end hentry]
      refine iff_of_false ?_ ?_
      · intro hsame
        cases hsame
      · rintro ⟨number, hsome⟩
        cases hsome
    | some entry =>
      cases entry with
      | some number =>
        rw [get_true_of_some hentry]
        exact iff_of_true rfl ⟨number, rfl⟩
      | none =>
        rw [get_true_of_none hentry]
        refine iff_of_false ?_ ?_
        · intro hsame
          cases hset : accepted.2.set os (index accepted.1) with
          | error fault =>
            rw [hset] at hsame
            cases hsame
          | ok made =>
            rw [hset] at hsame
            have hlength := length_contexts_set hset
            rw [(Prod.ext_iff.mp (Except.ok.inj hsame)).2] at hlength
            exact Nat.succ_ne_self _ hlength.symm
        · rintro ⟨number, hsome⟩
          cases hsome

/-- `ioctl` passes a call through unless it is `FIONBIO` with a pointer it cannot read, or on a
socket that it knows in the other mode. -/
theorem ioctl_passes_iff (fd : ℤ) (request : UInt64) (arg : Pointer) :
    w.ioctl os fd request arg = w.original os (.ioctl fd request arg) ↔
      w.Untouched os (.ioctl fd request arg) := by
  rw [ioctl, Untouched]
  by_cases hrequest : request = fionbio
  · rw [if_pos hrequest]
    cases hread : os.readInt w.kernel arg with
    | none =>
      refine iff_of_false ?_ ?_
      · intro hsame
        cases hsame
      · intro hall
        obtain ⟨value, hvalue, -⟩ := hall hrequest
        cases hvalue
    | some value =>
      cases hcontext : w.context fd with
      | none =>
        refine iff_of_true rfl fun _ ↦ ⟨value, rfl, ?_⟩
        intro number ctx hsome
        cases hsome
      | some found =>
        obtain ⟨number, ctx⟩ := found
        by_cases hoff : ctx.isClosed = true ∨ ctx.isSocket = false
        · simp only [if_pos hoff]
          refine iff_of_true trivial fun _ ↦ ⟨value, rfl, ?_⟩
          intro _ _ hsome hopen hsocket
          cases hsome
          rcases hoff with hclosed | hnot
          · exact absurd (hclosed.symm.trans hopen) Bool.false_ne_true.symm
          · exact absurd (hsocket.symm.trans hnot) Bool.false_ne_true.symm
        · simp only [if_neg hoff]
          have hstored := contexts_of_context hcontext
          obtain ⟨hopen, hsocket⟩ := not_or.mp hoff
          constructor
          · intro hsame _
            refine ⟨value, rfl, ?_⟩
            rintro _ _ hsome - -
            cases hsome
            have hcontexts : w.contexts.set number
                { ctx with userNonblock := decide (value ≠ 0) } = w.contexts := by
              by_contra hne
              exact original_ne hne hsame
            have hlength : number < w.contexts.length := (List.getElem?_eq_some_iff.mp hstored).1
            have hentry := congrArg (fun contexts ↦ contexts[number]?) hcontexts
            simp only [List.getElem?_set_self hlength, hstored] at hentry
            exact (congrArg FdCtx.userNonblock (Option.some.inj hentry)).symm
          · intro hall
            obtain ⟨found, hfound, hmode⟩ := hall hrequest
            cases hfound
            have hkept := hmode number ctx rfl (Bool.eq_false_of_not_eq_true hopen)
              (Bool.eq_true_of_not_eq_false hsocket)
            obtain ⟨hlength, hsame⟩ := List.getElem?_eq_some_iff.mp hstored
            rw [setContext, ← hkept, ← hsame, List.set_getElem_self hlength]
  · rw [if_neg hrequest]
    exact iff_of_true rfl fun hsame ↦ absurd hsame hrequest

/-- Assumes: hooking is off. Whatever the call, the kernel and the descriptor table are: the hook
passes the call through exactly when it is not an `fcntl` with an argument, an `accept` of a
descriptor without a context, or an `ioctl(FIONBIO)` with a pointer that cannot be read or on a
socket known in the other mode. -/
theorem disabled_hook_passes_iff (hdisabled : thread.hookEnable = false) (call : Call) :
    w.PassesThrough os thread call ↔ w.Untouched os call := by
  rw [passesThrough_iff]
  cases call with
  | sleep seconds => exact iff_of_true (if_pos hdisabled) trivial
  | usleep usec => exact iff_of_true (if_pos hdisabled) trivial
  | nanosleep req rem => exact iff_of_true (if_pos hdisabled) trivial
  | socket domain type protocol => exact iff_of_true (if_pos hdisabled) trivial
  | connect fd addr addrlen => exact iff_of_true (if_pos hdisabled) trivial
  | accept fd addr addrlen => exact accept_passes_iff hdisabled fd addr addrlen
  | read | readv | recv | recvfrom | recvmsg | write | writev | send | sendto | sendmsg =>
    exact iff_of_true (doIo_disabled hdisabled _ _ _ _) trivial
  | close fd => exact iff_of_true (if_pos hdisabled) trivial
  | fcntl fd cmd arg => exact fcntl_passes_iff hdisabled fd cmd arg
  | ioctl fd request arg => exact ioctl_passes_iff fd request arg
  | getsockopt => exact iff_of_true rfl trivial
  | setsockopt => exact iff_of_true (if_pos hdisabled) trivial

/-- A `read` with hooking off is a `read`. -/
theorem disabled_hook_passes_read :
    (⟨false, true⟩ : Thread).hookEnable = false ∧
      (init ()).PassesThrough quietOs ⟨false, true⟩ (.read 3 4096 10) :=
  ⟨rfl, (disabled_hook_passes_iff rfl (.read 3 4096 10)).mpr trivial⟩

/-- `fcntl(3, F_SETFL, O_NONBLOCK)` with hooking off calls `fcntl(3, F_SETFL)`. -/
theorem disabled_hook_drops_argument :
    ¬ ∀ (κ : Type) (os : Os κ) (w : World κ) (thread : Thread) (call : Call),
      thread.hookEnable = false → w.PassesThrough os thread call := by
  intro hall
  obtain ⟨next, hhook, hcalls, -⟩ := hall Unit quietOs (init ()) ⟨false, true⟩
    (.fcntl 3 .setFl (some 0x800)) rfl
  cases hhook
  exact absurd hcalls (by decide)

end World

end Cczoe.Hook
