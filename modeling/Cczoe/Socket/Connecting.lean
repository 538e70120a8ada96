import Cczoe.Scheduler.EventTableLaws
import Cczoe.Socket.Operations

/-!
# What `Socket::connect` answers

`Truthful` says that `connect` returns true only for a connected socket on whose descriptor the
original `connect` was called with the given address and succeeded, at once or later, and otherwise
leaves the socket closed.

`connect_truthful_iff` gives the three ways in which that fails once there is a descriptor. With
hooking on and no timeout the hook answers 0 and calls nothing; an address of another family is
refused without closing; and an event that cannot be added makes `connectWithTimeout` throw.
-/

set_option autoImplicit false
set_option relaxedAutoImplicit false

namespace Cczoe.Sockets

open Cczoe.Foundations (bind_eq_ok)
open Cczoe.Hook (Os World Thread Pointer Call Reply)

/-- The original `connect` was called for a descriptor and an address, and has succeeded: it
returned 0, or the error that was asked for when the descriptor became writable was 0. -/
structure Attempt.Established (attempt : Attempt) (fd : ℤ) (addr : Pointer) (addrlen : UInt32) :
    Prop where
  fd_eq : attempt.fd = fd
  addr_eq : attempt.addr = addr
  addrlen_eq : attempt.addrlen = addrlen
  succeeded : attempt.value = 0 ∨ attempt.soError = some 0

/-- `connect` returns true for a connected socket only, and otherwise leaves the socket closed. -/
structure Socket.Result.Truthful {κ : Type} (result : Socket.Result κ) (addr : Address)
    (pointer : Pointer) : Prop where
  connected : result.ret = true → result.socket.isConnected = true ∧ ∃ attempt,
    result.attempt = some attempt ∧
      attempt.Established result.socket.sock pointer addr.addrLen
  closed : result.ret = false → result.socket.sock = -1 ∧ result.socket.isConnected = false

section Hooks

variable {κ : Type} (os : Os κ) (thread : Thread) (waiting : Waiting κ)

/-- The original `connect` goes on in the background and the descriptor cannot be waited for. -/
def AddEventFails (fd : ℤ) (addr : Pointer) (addrlen : UInt32) (w : World κ) : Prop :=
  thread.hookEnable = true ∧ ∃ number ctx, w.context fd = some (number, ctx) ∧
    ctx.isClosed = false ∧ ctx.isSocket = true ∧ ctx.userNonblock = false ∧
    (w.invoke os (.connect fd addr addrlen)).1 = -1 ∧
    (w.invoke os (.connect fd addr addrlen)).2.errno = einprogress ∧
    (waiting.addEvent fd (w.invoke os (.connect fd addr addrlen)).2).1 ≠ 0

variable {os thread waiting} {locals : Locals os} {fd : ℤ} {addr : Pointer} {addrlen : UInt32}
  {timeout : UInt64} {w : World κ}

/-- The answer of the `connect` hook is that of `connect` in the descriptor table. -/
theorem connectHook_eq (os : Os κ) (thread : Thread) (fd : ℤ) (addr : Pointer) (addrlen : UInt32)
    (w : World κ) : w.connect os thread fd addr addrlen =
      .ok (.returned (connectHook os thread fd addr addrlen w).value,
        (connectHook os thread fd addr addrlen w).world) := by
  unfold World.connect connectHook
  split_ifs
  · rfl
  · rfl

/-- An answer of 0 stands for a call of the original `connect` that has succeeded. -/
def Answer.Backed (answer : Answer κ) (fd : ℤ) (addr : Pointer) (addrlen : UInt32) : Prop :=
  answer.value = 0 →
    ∃ attempt, answer.attempt = some attempt ∧ attempt.Established fd addr addrlen

theorem connectOriginal_backed (os : Os κ) (fd : ℤ) (addr : Pointer) (addrlen : UInt32)
    (w : World κ) : (connectOriginal os fd addr addrlen w).Backed fd addr addrlen :=
  fun hzero ↦ ⟨_, rfl, rfl, rfl, rfl, Or.inl hzero⟩

theorem refused_backed (attempt : Option Attempt) (fd : ℤ) (addr : Pointer) (addrlen : UInt32)
    (w : World κ) : (⟨-1, attempt, w⟩ : Answer κ).Backed fd addr addrlen :=
  fun (hzero : (-1 : ℤ) = 0) ↦ absurd hzero (by decide)

theorem finishConnect_backed (locals : Locals os) (fd : ℤ) (addr : Pointer) (addrlen : UInt32)
    (value : ℤ) (cancelled : Bool) (w : World κ) :
    (finishConnect os locals ⟨fd, addr, addrlen, value, none⟩ cancelled w).Backed fd addr
      addrlen := by
  unfold finishConnect
  dsimp only
  split_ifs with hcancelled hfailed hnone
  · exact refused_backed _ _ _ _ _
  · exact refused_backed _ _ _ _ _
  · exact fun _ ↦ ⟨_, rfl, rfl, rfl, rfl, Or.inr (congrArg some hnone)⟩
  · exact refused_backed _ _ _ _ _

/-- `connectWithTimeout` throws when the event cannot be added, and otherwise returns an answer that
is backed. -/
theorem connectWithTimeout_cases (os : Os κ) (thread : Thread) (locals : Locals os)
    (waiting : Waiting κ) (fd : ℤ) (addr : Pointer) (addrlen : UInt32) (timeout : UInt64)
    (w : World κ) :
    (AddEventFails os thread waiting fd addr addrlen w ∧ ∃ stop,
      connectWithTimeout os thread locals waiting fd addr addrlen timeout w = .error stop) ∨
    (¬ AddEventFails os thread waiting fd addr addrlen w ∧ ∃ answer,
      connectWithTimeout os thread locals waiting fd addr addrlen timeout w = .ok answer ∧
        answer.Backed fd addr addrlen) := by
  have hbacked := connectOriginal_backed os fd addr addrlen w
  unfold connectWithTimeout
  by_cases hoff : thread.hookEnable = false
  · rw [if_pos hoff]
    refine Or.inr ⟨?_, _, rfl, hbacked⟩
    rintro ⟨hon, -⟩
    rw [hoff] at hon
    cases hon
  rw [if_neg hoff]
  cases hcontext : w.context fd with
  | none =>
    refine Or.inr ⟨?_, _, rfl, refused_backed _ _ _ _ _⟩
    rintro ⟨-, number, ctx, hsome, -⟩
    rw [hcontext] at hsome
    cases hsome
  | some tracked =>
    obtain ⟨number, ctx⟩ := tracked
    have hfails : AddEventFails os thread waiting fd addr addrlen w →
        ctx.isClosed = false ∧ ctx.isSocket = true ∧ ctx.userNonblock = false ∧
          (w.invoke os (.connect fd addr addrlen)).1 = -1 ∧
          (w.invoke os (.connect fd addr addrlen)).2.errno = einprogress ∧
          (waiting.addEvent fd (w.invoke os (.connect fd addr addrlen)).2).1 ≠ 0 := by
      rintro ⟨-, _, _, hsome, hrest⟩
      cases hcontext.symm.trans hsome
      exact hrest
    dsimp only
    split_ifs with hclosed hplain hnonblock hzero hother hadd
    · refine Or.inr ⟨fun hfail ↦ ?_, _, rfl, refused_backed _ _ _ _ _⟩
      exact absurd ((hfails hfail).1.symm.trans hclosed) Bool.false_ne_true
    · refine Or.inr ⟨fun hfail ↦ ?_, _, rfl, hbacked⟩
      exact absurd (hplain.symm.trans (hfails hfail).2.1) Bool.false_ne_true
    · refine Or.inr ⟨fun hfail ↦ ?_, _, rfl, hbacked⟩
      exact absurd ((hfails hfail).2.2.1.symm.trans hnonblock) Bool.false_ne_true
    · refine Or.inr ⟨fun hfail ↦ ?_, _, rfl, hbacked⟩
      exact absurd (hzero.symm.trans (hfails hfail).2.2.2.1) (by decide)
    · refine Or.inr ⟨fun hfail ↦ ?_, _, rfl, hbacked⟩
      have hanswer := (hfails hfail).2.2.2
      exact hother.elim (fun hne ↦ hne hanswer.1) fun hne ↦ hne hanswer.2.1
    · obtain ⟨hminus, hprogress⟩ := not_or.mp hother
      exact Or.inl ⟨⟨Bool.of_not_eq_false hoff, number, ctx, hcontext,
        Bool.of_not_eq_true hclosed, Bool.of_not_eq_false hplain, Bool.of_not_eq_true hnonblock,
        not_not.mp hminus, not_not.mp hprogress, hadd⟩, _, rfl⟩
    · exact Or.inr ⟨fun hfail ↦ hadd (hfails hfail).2.2.2.2.2, _, rfl,
        finishConnect_backed _ _ _ _ _ _ _⟩

end Hooks

namespace Socket

section Closing

variable {κ : Type} (net : NetOs κ) (thread : Thread) (s : Socket) (w : World κ)

/-- The `close` hook returns. -/
theorem close_returns (fd : ℤ) :
    ∃ value next, w.close net.toOs thread fd = .ok (.returned value, next) := by
  unfold World.close
  by_cases hoff : thread.hookEnable = false
  · rw [if_pos hoff]
    exact ⟨_, _, rfl⟩
  · rw [if_neg hoff]
    cases w.context fd with
    | none => exact ⟨_, _, rfl⟩
    | some tracked => exact ⟨_, _, rfl⟩

/-- Assumes: a socket with a descriptor. It is closed. -/
theorem close_open (hopen : s.sock ≠ -1) : ∃ closed next,
    s.close net thread w = .ok (false, closed, next) ∧ closed.sock = -1 ∧
      closed.isConnected = false := by
  obtain ⟨value, next, hclose⟩ := close_returns net thread w s.sock
  have hnot : ¬ (s.isConnected = false ∧ s.sock = -1) := fun h ↦ hopen h.2
  rw [close, if_neg hnot, if_neg hopen, hclose]
  exact ⟨_, _, rfl, rfl, rfl⟩

/-- Asking for an address changes neither the descriptor nor whether the socket is connected. -/
theorem getLocalAddress_keeps : (s.getLocalAddress net w).2.sock = s.sock ∧
    (s.getLocalAddress net w).2.isConnected = s.isConnected := by
  unfold getLocalAddress
  cases s.localAddress with
  | some addr => exact ⟨rfl, rfl⟩
  | none =>
    dsimp only
    cases net.getsockname w.kernel s.sock s.family with
    | none => exact ⟨rfl, rfl⟩
    | some addr => exact ⟨rfl, rfl⟩

theorem getRemoteAddress_keeps : (s.getRemoteAddress net w).2.sock = s.sock ∧
    (s.getRemoteAddress net w).2.isConnected = s.isConnected := by
  unfold getRemoteAddress
  cases s.remoteAddress with
  | some addr => exact ⟨rfl, rfl⟩
  | none =>
    dsimp only
    cases net.getpeername w.kernel s.sock s.family with
    | none => exact ⟨rfl, rfl⟩
    | some addr => exact ⟨rfl, rfl⟩

end Closing

section Connect

variable {κ : Type} {net : NetOs κ} {locals : Locals net.toOs} {thread : Thread}
  {waiting : Waiting κ} {addr : Address} {pointer : Pointer} {timeout : UInt64}
  {s opened : Socket} {w next : World κ}

/-- `connect` of a socket that cannot open a descriptor returns false. -/
theorem connect_of_closed
    (hopened : ensureSocket net locals thread { s with remoteAddress := some addr } w =
      .ok (opened, next)) (hclosed : opened.sock = -1) :
    s.connect net locals thread waiting addr pointer timeout w =
      .ok ⟨false, none, opened, next⟩ := by
  rw [connect, hopened]
  exact dif_pos hclosed

/-- `connect` to an address of another family returns false. -/
theorem connect_of_family_ne
    (hopened : ensureSocket net locals thread { s with remoteAddress := some addr } w =
      .ok (opened, next)) (hopen : opened.sock ≠ -1) (hfamily : addr.family ≠ opened.family) :
    s.connect net locals thread waiting addr pointer timeout w =
      .ok ⟨false, none, opened, next⟩ := by
  rw [connect, hopened]
  exact (dif_neg hopen).trans (if_pos hfamily)

/-- The socket with its connection established. -/
def established (opened : Socket) (hopen : opened.sock ≠ -1) : Socket :=
  { opened with
    isConnected := true
    open_of_connected := fun _ ↦ hopen }

/-- `connect` throws what the hook throws. -/
theorem connect_of_error {stop : Stop}
    (hopened : ensureSocket net locals thread { s with remoteAddress := some addr } w =
      .ok (opened, next)) (hopen : opened.sock ≠ -1) (hfamily : addr.family = opened.family)
    (hcall : opened.connectCall net locals thread waiting addr pointer timeout next =
      .error stop) :
    s.connect net locals thread waiting addr pointer timeout w = .error stop := by
  rw [connect, hopened]
  refine (dif_neg hopen).trans ((if_neg (not_not.mpr hfamily)).trans ?_)
  rw [hcall]
  rfl

/-- `connect` closes the socket when the hook refuses. -/
theorem connect_of_refused {answer : Answer κ}
    (hopened : ensureSocket net locals thread { s with remoteAddress := some addr } w =
      .ok (opened, next)) (hopen : opened.sock ≠ -1) (hfamily : addr.family = opened.family)
    (hcall : opened.connectCall net locals thread waiting addr pointer timeout next = .ok answer)
    (hvalue : answer.value ≠ 0) :
    ∃ closed final, s.connect net locals thread waiting addr pointer timeout w =
      .ok ⟨false, answer.attempt, closed, final⟩ ∧ closed.sock = -1 ∧
        closed.isConnected = false := by
  obtain ⟨closed, final, hclose, hsock, hconnected⟩ :=
    close_open net thread opened answer.world hopen
  refine ⟨closed, final, ?_, hsock, hconnected⟩
  rw [connect, hopened]
  refine (dif_neg hopen).trans ((if_neg (not_not.mpr hfamily)).trans ?_)
  rw [hcall]
  refine (if_pos hvalue).trans ?_
  rw [hclose]
  rfl

/-- `connect` believes the hook when it answers 0. -/
theorem connect_of_accepted {answer : Answer κ}
    (hopened : ensureSocket net locals thread { s with remoteAddress := some addr } w =
      .ok (opened, next)) (hopen : opened.sock ≠ -1) (hfamily : addr.family = opened.family)
    (hcall : opened.connectCall net locals thread waiting addr pointer timeout next = .ok answer)
    (hvalue : answer.value = 0) :
    s.connect net locals thread waiting addr pointer timeout w =
      .ok ⟨true, answer.attempt, (((opened.established hopen).getRemoteAddress net
        answer.world).2.getLocalAddress net answer.world).2, answer.world⟩ := by
  rw [connect, hopened]
  refine (dif_neg hopen).trans ((if_neg (not_not.mpr hfamily)).trans ?_)
  rw [hcall]
  exact if_neg (not_not.mpr hvalue)

/-- A socket without a descriptor is not connected. -/
theorem not_connected_of_closed (hclosed : s.sock = -1) : s.isConnected = false :=
  Bool.of_not_eq_true fun hconnected ↦ s.open_of_connected hconnected hclosed

/-- The front of `bind` and `connect` finds a descriptor and does nothing, or tries to open one and
changes nothing else of the socket. -/
theorem ensureSocket_cases (hopened : ensureSocket net locals thread s w = .ok (opened, next)) :
    (s.sock ≠ -1 ∧ opened = s ∧ next = w) ∨
      (s.sock = -1 ∧
        ∃ sock hsock, opened = { s with sock := sock, open_of_connected := hsock }) := by
  unfold ensureSocket at hopened
  by_cases hclosed : s.sock = -1
  · rw [dif_pos hclosed] at hopened
    obtain ⟨made, -, hopened⟩ := bind_eq_ok hopened
    dsimp only at hopened
    split_ifs at hopened
    · cases hopened
      exact Or.inr ⟨hclosed, _, _, rfl⟩
    · obtain ⟨_, -, hopened⟩ := bind_eq_ok hopened
      cases hopened
      exact Or.inr ⟨hclosed, _, _, rfl⟩
  · rw [dif_neg hclosed] at hopened
    cases hopened
    exact Or.inl ⟨hclosed, rfl, rfl⟩

/-- Opening a descriptor does not change the family. -/
theorem ensureSocket_family (hopened : ensureSocket net locals thread s w = .ok (opened, next)) :
    opened.family = s.family := by
  rcases ensureSocket_cases hopened with ⟨-, rfl, -⟩ | ⟨-, sock, hsock, rfl⟩
  · rfl
  · rfl

/-- Where the call goes from the descriptor on: the hook answers 0 without a call, or throws, or its
answer is backed by a call of the original `connect`. -/
theorem connectCall_cases (net : NetOs κ) (locals : Locals net.toOs) (thread : Thread)
    (waiting : Waiting κ) (addr : Address) (pointer : Pointer) (timeout : UInt64) (s : Socket)
    (w : World κ) :
    (thread.hookEnable = true ∧ timeout = noTimeout ∧
      s.connectCall net locals thread waiting addr pointer timeout w = .ok ⟨0, none, w⟩) ∨
    (timeout ≠ noTimeout ∧
      AddEventFails net.toOs thread waiting s.sock pointer addr.addrLen w ∧
      ∃ stop, s.connectCall net locals thread waiting addr pointer timeout w = .error stop) ∨
    (¬ (thread.hookEnable = true ∧ timeout = noTimeout) ∧
      ¬ (timeout ≠ noTimeout ∧
        AddEventFails net.toOs thread waiting s.sock pointer addr.addrLen w) ∧
      ∃ answer, s.connectCall net locals thread waiting addr pointer timeout w = .ok answer ∧
        answer.Backed s.sock pointer addr.addrLen) := by
  unfold connectCall
  by_cases hnone : timeout = noTimeout
  · rw [if_pos hnone, connectHook]
    by_cases hoff : thread.hookEnable = false
    · rw [if_pos hoff]
      refine Or.inr (Or.inr ⟨fun hon ↦ ?_, fun hfail ↦ hfail.1 hnone, _, rfl,
        connectOriginal_backed _ _ _ _ _⟩)
      exact absurd (hoff.symm.trans hon.1) Bool.false_ne_true
    · rw [if_neg hoff]
      exact Or.inl ⟨Bool.of_not_eq_false hoff, hnone, rfl⟩
  · rw [if_neg hnone]
    rcases connectWithTimeout_cases net.toOs thread locals waiting s.sock pointer addr.addrLen
      timeout w with ⟨hfails, hstop⟩ | ⟨hadds, answer, hanswer, hbacked⟩
    · exact Or.inr (Or.inl ⟨hnone, hfails, hstop⟩)
    · exact Or.inr (Or.inr ⟨fun hon ↦ hnone hon.2, fun hfail ↦ hadds hfail.2, answer, hanswer,
        hbacked⟩)

/-- Assumes: the socket has found or opened a descriptor, or has failed to. `connect` answers
truthfully if and only if there is no descriptor, or the address has the family of the socket, the
call is not made with hooking on and without a timeout, and the event can be added if it has to
be. -/
theorem truthful_of_opened
    (hopened : ensureSocket net locals thread { s with remoteAddress := some addr } w =
      .ok (opened, next)) :
    (∃ result, s.connect net locals thread waiting addr pointer timeout w = .ok result ∧
        result.Truthful addr pointer) ↔
      (opened.sock = -1 ∨ (addr.family = opened.family ∧
        ¬ (thread.hookEnable = true ∧ timeout = noTimeout) ∧
        ¬ (timeout ≠ noTimeout ∧
          AddEventFails net.toOs thread waiting opened.sock pointer addr.addrLen next))) := by
  by_cases hclosed : opened.sock = -1
  · have hnot := not_connected_of_closed hclosed
    refine iff_of_true ⟨_, connect_of_closed hopened hclosed, ?_, ?_⟩ (Or.inl hclosed)
    · exact fun hret ↦ absurd hret Bool.false_ne_true
    · exact fun _ ↦ ⟨hclosed, hnot⟩
  by_cases hfamily : addr.family = opened.family
  · rcases connectCall_cases net locals thread waiting addr pointer timeout opened next with
      ⟨hon, hnone, hcall⟩ | ⟨hsome, hfails, stop, hcall⟩ | ⟨hmade, hadds, answer, hcall, hbacked⟩
    · -- the hook answers 0 and no attempt was made
      refine iff_of_false ?_ ?_
      · rintro ⟨result, hresult, htruthful⟩
        cases (connect_of_accepted hopened hclosed hfamily hcall rfl).symm.trans hresult
        obtain ⟨-, attempt, hattempt, -⟩ := htruthful.connected rfl
        cases hattempt
      · exact fun hcond ↦ hcond.elim hclosed fun h ↦ h.2.1 ⟨hon, hnone⟩
    · refine iff_of_false ?_ ?_
      · rintro ⟨result, hresult, -⟩
        cases (connect_of_error hopened hclosed hfamily hcall).symm.trans hresult
      · exact fun hcond ↦ hcond.elim hclosed fun h ↦ h.2.2 ⟨hsome, hfails⟩
    · refine iff_of_true ?_ (Or.inr ⟨hfamily, hmade, hadds⟩)
      by_cases hvalue : answer.value = 0
      · obtain ⟨attempt, hattempt, hestablished⟩ := hbacked hvalue
        have hremote := getRemoteAddress_keeps net (opened.established hclosed) answer.world
        have hlocal := getLocalAddress_keeps net
          ((opened.established hclosed).getRemoteAddress net answer.world).2 answer.world
        refine ⟨_, connect_of_accepted hopened hclosed hfamily hcall hvalue, ?_, ?_⟩
        · refine fun _ ↦ ⟨hlocal.2.trans hremote.2, attempt, hattempt, ?_⟩
          rw [hlocal.1, hremote.1]
          exact hestablished
        · exact fun hret ↦ absurd hret.symm Bool.false_ne_true
      · obtain ⟨closed, final, hresult, hsock, hconnected⟩ :=
          connect_of_refused hopened hclosed hfamily hcall hvalue
        exact ⟨_, hresult, fun hret ↦ absurd hret Bool.false_ne_true, fun _ ↦ ⟨hsock, hconnected⟩⟩
  · -- the address is refused and the descriptor stays open
    refine iff_of_false ?_ ?_
    · rintro ⟨result, hresult, htruthful⟩
      cases (connect_of_family_ne hopened hclosed hfamily).symm.trans hresult
      exact hclosed (htruthful.closed rfl).1
    · exact fun hcond ↦ hcond.elim hclosed fun h ↦ hfamily h.1

/-- Whatever the kernel and the rest of the program do: `connect` answers truthfully if and only if
the descriptor that it needs is there or is opened without a fault or cannot be opened, and, where
there is one, the address has the family of the socket, the call is not made with hooking on and
without a timeout, and the event can be added if it has to be. -/
theorem connect_truthful_iff (net : NetOs κ) (locals : Locals net.toOs) (thread : Thread)
    (waiting : Waiting κ) (addr : Address) (pointer : Pointer) (timeout : UInt64) (s : Socket)
    (w : World κ) :
    (∃ result, s.connect net locals thread waiting addr pointer timeout w = .ok result ∧
        result.Truthful addr pointer) ↔
      ∃ opened next,
        ensureSocket net locals thread { s with remoteAddress := some addr } w =
          .ok (opened, next) ∧
        (opened.sock = -1 ∨ (addr.family = s.family ∧
          ¬ (thread.hookEnable = true ∧ timeout = noTimeout) ∧
          ¬ (timeout ≠ noTimeout ∧
            AddEventFails net.toOs thread waiting opened.sock pointer addr.addrLen next))) := by
  cases hopened : ensureSocket net locals thread { s with remoteAddress := some addr } w with
  | error stop =>
    refine iff_of_false ?_ ?_
    · rintro ⟨result, hresult, -⟩
      rw [connect, hopened] at hresult
      cases hresult
    · rintro ⟨opened, next, hok, -⟩
      cases hok
  | ok found =>
    obtain ⟨opened, next⟩ := found
    have hfamily := ensureSocket_family hopened
    rw [truthful_of_opened hopened, hfamily]
    constructor
    · exact fun hcond ↦ ⟨opened, next, rfl, hcond⟩
    · rintro ⟨_, _, hok, hcond⟩
      cases hok
      exact hcond

end Connect

/-- A kernel that refuses to connect and to set an option, over the memory of one `timeval`. -/
def refusingNet : NetOs (Int64 × Int64) where
  call := fun call kernel ↦
    match call with
    | .connect _ _ _ => (⟨-1, 111⟩, kernel)
    | .setsockopt _ _ _ _ _ => (⟨-1, 33⟩, kernel)
    | _ => (⟨0, 0⟩, kernel)
  fstat := fun _ _ ↦ some true
  readInt := fun _ _ ↦ some 0
  readTime := fun kernel _ ↦ some kernel
  bind := fun _ _ _ kernel ↦ (⟨0, 0⟩, kernel)
  getsockname := fun _ _ _ ↦ none
  getpeername := fun _ _ _ ↦ none

/-- The local variables over that memory. -/
def refusingLocals : Locals refusingNet.toOs where
  tv := 1
  val := 2
  error := 3
  len := 4
  storeTime := fun sec usec _ ↦ (sec, usec)
  storeInt := fun _ _ kernel ↦ kernel
  readTime_storeTime := fun _ _ _ ↦ rfl

/-- A program that can add every event, and in which nothing happens while a fiber waits. -/
def quietWaiting {κ : Type} : Waiting κ where
  addEvent := fun _ w ↦ (0, w)
  resume := fun _ _ w ↦ (false, w)

/-- A TCP socket with descriptor 3 that is not connected. -/
def unconnected : Socket where
  sock := 3
  family := 2
  type := 1
  protocol := 0
  open_of_connected := fun _ ↦ by decide

/-- With hooking on and no timeout, `connect` returns true for a peer that refuses connections,
without a call of the original `connect`. -/
theorem connect_refused_returns_true : ∃ result,
    unconnected.connect refusingNet refusingLocals ⟨true, true⟩ quietWaiting ⟨2, []⟩ 8 noTimeout
        (World.init (0, 0)) = .ok result ∧
      result.ret = true ∧ result.socket.isConnected = true ∧ result.attempt = none ∧
      ¬ result.Truthful ⟨2, []⟩ 8 := by
  refine ⟨_, rfl, rfl, rfl, rfl, fun htruthful ↦ ?_⟩
  obtain ⟨-, attempt, hattempt, -⟩ := htruthful.connected rfl
  cases hattempt

end Socket

end Cczoe.Sockets
