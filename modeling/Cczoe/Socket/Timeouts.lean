import Cczoe.Hook.NonblockFlag
import Cczoe.Socket.Connecting

/-!
# The timeouts of a socket

`setRecvTimeout` and `setSendTimeout` split milliseconds into a `timeval` and set a socket option.
The `setsockopt` hook puts the milliseconds together again, which gives the number it started from
(`recombine_timevalOf`), and keeps them in the context of the descriptor.

The hook keeps them before it asks the kernel, whose refusal comes too late: `setTimeouts_iff` says
that a setter has done what it reports if and only if the kernel accepts the option, or the timeout
was the one that is set.
-/

set_option autoImplicit false
set_option relaxedAutoImplicit false

namespace Cczoe.Sockets

open Cczoe.Hook (Os World Thread Pointer Call Reply FdCtx)

/-! ### Milliseconds -/

/-- The remainder of a division that truncates has the sign of the number that is divided. -/
theorem tmod_bounds (value : ℤ) :
    (0 ≤ value → 0 ≤ value.tmod 1000 ∧ value.tmod 1000 < 1000) ∧
      (value ≤ 0 → -1000 < value.tmod 1000 ∧ value.tmod 1000 ≤ 0) := by
  constructor
  · intro hpos
    exact ⟨Int.tmod_nonneg _ hpos, Int.tmod_lt_of_pos _ (by decide)⟩
  · intro hneg
    have hopposite := Int.tmod_nonneg 1000 (Int.neg_nonneg_of_nonpos hneg)
    rw [Int.neg_tmod] at hopposite
    exact ⟨Int.lt_tmod_of_pos _ (by decide), by omega⟩

/-- The seconds and microseconds of a timeout give the timeout. Nothing overflows on the way. -/
theorem recombine_timevalOf (timeout : Int64) :
    (Socket.timevalOf timeout).1 * 1000 + (Socket.timevalOf timeout).2 / 1000 = timeout := by
  have hlower := timeout.le_toInt
  have hupper := timeout.toInt_lt
  have hthousand : (1000 : Int64).toInt = 1000 := by decide
  have hparts := Int.mul_tdiv_add_tmod timeout.toInt 1000
  obtain ⟨hpos, hneg⟩ := tmod_bounds timeout.toInt
  have hsec : (timeout / 1000 * 1000).toInt = timeout.toInt.tdiv 1000 * 1000 := by
    rw [Int64.toInt_mul, Int64.toInt_div_of_ne_right _ _ (by decide), hthousand]
    exact Int.bmod_eq_of_le (by omega) (by omega)
  have husec : ((timeout % 1000 * 1000).toInt32.toInt64 / 1000).toInt =
      timeout.toInt.tmod 1000 := by
    have hprod : (timeout % 1000 * 1000).toInt = timeout.toInt.tmod 1000 * 1000 := by
      rw [Int64.toInt_mul, Int64.toInt_mod, hthousand]
      exact Int.bmod_eq_of_le (by omega) (by omega)
    rw [Int64.toInt_div_of_ne_right _ _ (by decide), Int32.toInt_toInt64, Int64.toInt_toInt32,
      hprod, hthousand, Int.bmod_eq_of_le (by omega) (by omega)]
    exact Int.mul_tdiv_cancel _ (by decide)
  apply Int64.toInt.inj
  calc (timeout / 1000 * 1000 + (timeout % 1000 * 1000).toInt32.toInt64 / 1000).toInt
      = (timeout.toInt.tdiv 1000 * 1000 + timeout.toInt.tmod 1000).bmod (2 ^ 64) := by
        rw [Int64.toInt_add, hsec, husec]
    _ = timeout.toInt.bmod (2 ^ 64) := by rw [Int.mul_comm, hparts]
    _ = timeout.toInt := Int.bmod_eq_of_le (by omega) (by omega)

/-! ### The option -/

/-- The timeout that an option is not about is kept. -/
theorem getTimeout_setTimeout (ctx : FdCtx) (type other : ℤ) (val : UInt64)
    (htype : type = Hook.soRcvtimeo ∨ type = Hook.soSndtimeo)
    (hother : other = Hook.soRcvtimeo ∨ other = Hook.soSndtimeo) :
    (ctx.setTimeout type val).getTimeout other =
      if other = type then val else ctx.getTimeout other := by
  rcases htype with rfl | rfl <;> rcases hother with rfl | rfl <;> rfl

namespace Socket

variable {κ : Type} (net : NetOs κ) (locals : Locals net.toOs) (thread : Thread)

/-- The kernel accepts the option for a timeout. -/
def KernelAccepts (optname : ℤ) (timeout : Int64) (s : Socket) (w : World κ) : Prop :=
  (net.call (.setsockopt s.sock Hook.solSocket optname locals.tv 16)
    (locals.storeTime (timevalOf timeout).1 (timevalOf timeout).2 w.kernel)).1.value = 0

/-- A setter returns. If it returns true, the timeout of its option is the given one and that of
another option is kept; if it returns false, both are kept. -/
def Sets (optname other : ℤ) (timeout : Int64) (s : Socket) (w : World κ) : Prop :=
  ∃ ret next, s.setTimeout net locals thread optname timeout w = .ok (ret, next) ∧
    s.getTimeout optname next = (if ret then timeout.toUInt64 else s.getTimeout optname w) ∧
    s.getTimeout other next = s.getTimeout other w

variable {thread} {s : Socket} {w : World κ} {number : ℕ} {ctx : FdCtx}

/-- Assumes: hooking is on and the descriptor is tracked. A setter stores the timeout, and returns
whether the kernel accepts the option. -/
theorem setTimeout_effect (hon : thread.hookEnable = true)
    (htracked : w.context s.sock = some (number, ctx)) {optname : ℤ}
    (hoptname : optname = Hook.soRcvtimeo ∨ optname = Hook.soSndtimeo) (timeout : Int64) :
    ∃ ret next, s.setTimeout net locals thread optname timeout w = .ok (ret, next) ∧
      (ret = true ↔ s.KernelAccepts net locals optname timeout w) ∧
      next.context s.sock = some (number, ctx.setTimeout optname timeout.toUInt64) := by
  obtain ⟨stored, hstored⟩ : ∃ stored : World κ, stored = { w with
    kernel := locals.storeTime (timevalOf timeout).1 (timevalOf timeout).2 w.kernel } := ⟨_, rfl⟩
  obtain ⟨answer, hanswer⟩ : ∃ answer, answer = (stored.setContext number
      (ctx.setTimeout optname timeout.toUInt64)).invoke net.toOs
        (.setsockopt s.sock Hook.solSocket optname locals.tv 16) := ⟨_, rfl⟩
  have hcontext : stored.context s.sock = some (number, ctx) :=
    (World.context_congr (by rw [hstored]) (by rw [hstored]) _).trans htracked
  have hread : net.readTime stored.kernel locals.tv = some (timevalOf timeout) := by
    rw [hstored]
    exact locals.readTime_storeTime _ _ _
  have hhook : stored.setsockopt net.toOs thread s.sock Hook.solSocket optname locals.tv 16 =
      .ok (.returned answer.1, answer.2) := by
    have hnot : ¬ thread.hookEnable = false := by
      rw [hon]
      exact nofun
    rw [World.setsockopt]
    simp only [if_neg hnot, true_and, if_pos hoptname, hcontext, hread, recombine_timevalOf]
    rw [hanswer]
    rfl
  refine ⟨answer.1 == 0, answer.2, ?_, ?_, ?_⟩
  · rw [setTimeout, ← hstored, setOption, hhook]
    rfl
  · rw [beq_iff_eq, hanswer, hstored]
    exact Iff.rfl
  · rw [hanswer]
    exact (World.context_congr rfl rfl _).trans (World.context_setContext hcontext _)

/-- Assumes: as above, for two different options. A setter does what it reports if and only if the
kernel accepts the option or the timeout was set already. -/
theorem sets_iff (hon : thread.hookEnable = true)
    (htracked : w.context s.sock = some (number, ctx)) {optname other : ℤ}
    (hoptname : optname = Hook.soRcvtimeo ∨ optname = Hook.soSndtimeo)
    (hother : other = Hook.soRcvtimeo ∨ other = Hook.soSndtimeo) (hne : other ≠ optname)
    (timeout : Int64) :
    s.Sets net locals thread optname other timeout w ↔
      s.KernelAccepts net locals optname timeout w ∨
        s.getTimeout optname w = timeout.toUInt64 := by
  obtain ⟨ret, next, hset, hret, hcontext⟩ :=
    setTimeout_effect net locals hon htracked hoptname timeout
  have hbefore : ∀ type, s.getTimeout type w = ctx.getTimeout type := by
    intro type
    rw [getTimeout, htracked]
  have hafter : ∀ type, s.getTimeout type next =
      (ctx.setTimeout optname timeout.toUInt64).getTimeout type := by
    intro type
    rw [getTimeout, hcontext]
  have hown : s.getTimeout optname next = timeout.toUInt64 := by
    rw [hafter, getTimeout_setTimeout ctx optname optname _ hoptname hoptname, if_pos rfl]
  have hkept : s.getTimeout other next = s.getTimeout other w := by
    rw [hafter, getTimeout_setTimeout ctx optname other _ hoptname hother, if_neg hne, hbefore]
  constructor
  · rintro ⟨_, _, hset', hvalue, -⟩
    cases hset.symm.trans hset'
    rw [hown] at hvalue
    cases ret with
    | true => exact Or.inl (hret.mp rfl)
    | false => exact Or.inr hvalue.symm
  · intro hcond
    refine ⟨ret, next, hset, ?_, hkept⟩
    rw [hown]
    cases ret with
    | true => rfl
    | false =>
      have hrefused : ¬ s.KernelAccepts net locals optname timeout w :=
        fun haccepts ↦ absurd (hret.mpr haccepts) Bool.false_ne_true
      exact (hcond.resolve_left hrefused).symm

/-- Assumes: hooking is on and the descriptor is tracked. For every timeout, each of the two setters
does what it reports if and only if the kernel accepts the option or the timeout was set already. -/
theorem setTimeouts_iff (hon : thread.hookEnable = true)
    (htracked : w.context s.sock = some (number, ctx)) (timeout : Int64) :
    (s.Sets net locals thread Hook.soRcvtimeo Hook.soSndtimeo timeout w ↔
        s.KernelAccepts net locals Hook.soRcvtimeo timeout w ∨
          s.getRecvTimeout w = timeout.toUInt64) ∧
      (s.Sets net locals thread Hook.soSndtimeo Hook.soRcvtimeo timeout w ↔
        s.KernelAccepts net locals Hook.soSndtimeo timeout w ∨
          s.getSendTimeout w = timeout.toUInt64) :=
  ⟨sets_iff net locals hon htracked (Or.inl rfl) (Or.inr rfl) (by decide) timeout,
    sets_iff net locals hon htracked (Or.inr rfl) (Or.inl rfl) (by decide) timeout⟩

/-- A world in which descriptor 3 is a tracked socket. -/
def trackedWorld : World (Int64 × Int64) :=
  { World.init (0, 0) with
    contexts := [{ fd := 3, isInit := true, isSocket := true, sysNonblock := true }]
    data := [none, none, none, some 0] }

/-- A timeout of -1 is the one that a new context has, so the setters that the kernel refuses do
what they report. -/
theorem setTimeouts_minus_one :
    unconnected.Sets refusingNet refusingLocals ⟨true, true⟩ Hook.soRcvtimeo Hook.soSndtimeo (-1)
        trackedWorld ∧
      unconnected.Sets refusingNet refusingLocals ⟨true, true⟩ Hook.soSndtimeo Hook.soRcvtimeo (-1)
        trackedWorld := by
  have hon : (⟨true, true⟩ : Thread).hookEnable = true := rfl
  have htracked : trackedWorld.context unconnected.sock = some (0, _) := rfl
  have hiff := setTimeouts_iff refusingNet refusingLocals hon htracked (-1)
  exact ⟨hiff.1.mpr (Or.inr (by decide)), hiff.2.mpr (Or.inr (by decide))⟩

/-- The kernel refuses a negative time, so `setRecvTimeout(-1500)` returns false, and
`getRecvTimeout()` returns -1500 in sixty-four bits from then on. -/
theorem setRecvTimeout_refused : ∃ next,
    unconnected.setRecvTimeout refusingNet refusingLocals ⟨true, true⟩ (-1500) trackedWorld =
        .ok (false, next) ∧
      unconnected.getRecvTimeout trackedWorld = noTimeout ∧
      unconnected.getRecvTimeout next = (-1500 : Int64).toUInt64 ∧
      ¬ unconnected.Sets refusingNet refusingLocals ⟨true, true⟩ Hook.soRcvtimeo Hook.soSndtimeo
        (-1500) trackedWorld := by
  refine ⟨_, rfl, rfl, by decide, ?_⟩
  rintro ⟨ret, next, hset, hvalue, -⟩
  cases hset
  exact absurd hvalue (by decide)

end Socket

end Cczoe.Sockets
