import Cczoe.Foundations.GuardedRuns
import Cczoe.Socket.Connecting

/-!
# The addresses that a socket keeps

A `Socket` keeps the address of its own end and that of the other end once it has one, whether the
kernel reported it or a caller of `bind` or `connect` asked for it, and never drops it. `Coherent`
says that what the socket answers is what the kernel reports, for a descriptor that was bound or
connected.

`step_coherent_iff` tells for each call when it keeps that: when every address that is kept agrees
with what the kernel reports after the call (`Agrees`). It follows for every run of such calls
(`coherent_in_every_run`). Binding to port 0 is one that does not
(`not_coherent_bound_to_any_port`).
-/

set_option autoImplicit false
set_option relaxedAutoImplicit false

namespace Cczoe.Sockets

open Cczoe.Foundations
open Cczoe.Hook (World Thread Pointer)

/-- The calls of a run on one socket. -/
inductive Action
  | bind (addr : Address) (pointer : Pointer)
  | connect (addr : Address) (pointer : Pointer) (timeout : UInt64)
  | close
  | getLocalAddress
  | getRemoteAddress
  deriving DecidableEq, Repr

/-- What a call returns. -/
inductive Output
  | done (ret : Bool)
  | address (addr : Address)
  deriving DecidableEq, Repr

/-- A socket in a run. `named` tells whether `bind` or `connect` has returned true for its current
descriptor, `peered` whether `connect` has. -/
structure Tracked (κ : Type) where
  socket : Socket
  world : World κ
  named : Bool := false
  peered : Bool := false
  closed : socket.sock = -1 → named = false ∧ peered = false

namespace Tracked

variable {κ : Type}

/-- The run begins with a socket that has no descriptor. -/
def start (family type protocol : ℤ) (world : World κ) : Tracked κ where
  socket := Socket.new family type protocol
  world := world
  closed := fun _ ↦ ⟨rfl, rfl⟩

/-- A mark of the current descriptor after a call that may set it: a socket without a descriptor has
none. -/
def mark (after : Socket) (old set : Bool) : Bool := if after.sock = -1 then false else old || set

/-- The socket after a call that has left it in a world, and that may set the marks. -/
def note (t : Tracked κ) (socket : Socket) (world : World κ) (named peered : Bool) : Tracked κ where
  socket := socket
  world := world
  named := mark socket t.named named
  peered := mark socket t.peered peered
  closed := fun hclosed ↦ ⟨if_pos hclosed, if_pos hclosed⟩

variable (net : NetOs κ) (locals : Locals net.toOs) (thread : Thread) (waiting : Waiting κ)

/-- One call. -/
def step (action : Action) (t : Tracked κ) : Except Stop (Output × Tracked κ) :=
  match action with
  | .bind addr pointer => (t.socket.bind net locals thread addr pointer t.world).map fun result ↦
      (.done result.1, t.note result.2.1 result.2.2 result.1 false)
  | .connect addr pointer timeout =>
    (t.socket.connect net locals thread waiting addr pointer timeout t.world).map fun result ↦
      (.done result.ret, t.note result.socket result.world result.ret result.ret)
  | .close => (t.socket.close net thread t.world).map fun result ↦
      (.done result.1, t.note result.2.1 result.2.2 false false)
  | .getLocalAddress =>
    let answer := t.socket.getLocalAddress net t.world
    .ok (.address answer.1, t.note answer.2 t.world false false)
  | .getRemoteAddress =>
    let answer := t.socket.getRemoteAddress net t.world
    .ok (.address answer.1, t.note answer.2 t.world false false)

/-- The address that the kernel reports through `getsockname` for the descriptor of a socket. -/
def sockName (kernel : κ) (s : Socket) : Address :=
  (net.getsockname kernel s.sock s.family).getD (unknownAddress s.family)

/-- The address that the kernel reports through `getpeername` for the descriptor of a socket. -/
def peerName (kernel : κ) (s : Socket) : Address :=
  (net.getpeername kernel s.sock s.family).getD (unknownAddress s.family)

/-- A socket whose descriptor was bound or connected answers with the address that the kernel
reports, and one whose descriptor was connected also for the other end. -/
structure Coherent (t : Tracked κ) : Prop where
  sockName_eq : t.named = true →
    (t.socket.getLocalAddress net t.world).1 = sockName net t.world.kernel t.socket
  peerName_eq : t.peered = true →
    (t.socket.getRemoteAddress net t.world).1 = peerName net t.world.kernel t.socket

/-- An address that is kept is the reported one. -/
def Keeps (kept : Option Address) (reported : Address) : Prop :=
  ∀ addr, kept = some addr → addr = reported

/-- The condition on `bind`, once there is a descriptor. If the kernel binds the descriptor, or it
was bound or connected before, the given address is the one that the kernel then reports. If it was
connected, the kept address of the other end still is. -/
def BindAgrees (t : Tracked κ) (addr : Address) (pointer : Pointer) (opened : Socket)
    (world : World κ) : Prop :=
  let reply := net.bind opened.sock pointer addr.addrLen world.kernel
  let kernel := if opened.family = addr.family then reply.2 else world.kernel
  (t.named = true ∨ (opened.family = addr.family ∧ reply.1.value = 0) →
      addr = sockName net kernel opened) ∧
    (t.peered = true → Keeps t.socket.remoteAddress (peerName net kernel opened))

/-- The condition on `connect`, once there is a descriptor. An address of another family is the
reported one of the other end, if the descriptor was connected. For an address of the family of the
socket, if the hook answers 0, it is the one that the kernel then reports for the other end, and the
kept address of the own end is the one reported for that. -/
def ConnectAgrees (t : Tracked κ) (addr : Address) (pointer : Pointer) (timeout : UInt64)
    (opened : Socket) (world : World κ) : Prop :=
  (addr.family ≠ opened.family → t.peered = true → addr = peerName net world.kernel opened) ∧
    (addr.family = opened.family → ∀ answer,
      opened.connectCall net locals thread waiting addr pointer timeout world = .ok answer →
      answer.value = 0 → addr = peerName net answer.world.kernel opened ∧
        Keeps t.socket.localAddress (sockName net answer.world.kernel opened))

/-- The condition on a call: after it, the addresses that are kept are the reported ones. -/
def Agrees (t : Tracked κ) : Action → Prop
  | .bind addr pointer => ∀ opened world,
      Socket.ensureSocket net locals thread { t.socket with localAddress := some addr } t.world =
        .ok (opened, world) → opened.sock ≠ -1 → t.BindAgrees net addr pointer opened world
  | .connect addr pointer timeout => ∀ opened world,
      Socket.ensureSocket net locals thread { t.socket with remoteAddress := some addr } t.world =
        .ok (opened, world) → opened.sock ≠ -1 →
      t.ConnectAgrees net locals thread waiting addr pointer timeout opened world
  | .close | .getLocalAddress | .getRemoteAddress => True

/-! ### What is kept and what is answered -/

section Answers

variable {net} {s : Socket} {w : World κ}

theorem keeps_none (reported : Address) : Keeps none reported := fun _ hkept ↦ nomatch hkept

theorem keeps_some_iff {addr reported : Address} : Keeps (some addr) reported ↔ addr = reported :=
  ⟨fun hkeeps ↦ hkeeps addr rfl, fun heq _ hkept ↦ Option.some.inj hkept ▸ heq⟩

/-- The socket answers with the reported address if and only if it keeps no other. -/
theorem getLocalAddress_eq_iff : (s.getLocalAddress net w).1 = sockName net w.kernel s ↔
    Keeps s.localAddress (sockName net w.kernel s) := by
  cases hkept : s.localAddress with
  | some addr => rw [Socket.getLocalAddress, hkept, keeps_some_iff]
  | none =>
    refine iff_of_true ?_ (keeps_none _)
    rw [Socket.getLocalAddress, hkept, sockName]
    cases net.getsockname w.kernel s.sock s.family with
    | none => rfl
    | some addr => rfl

theorem getRemoteAddress_eq_iff : (s.getRemoteAddress net w).1 = peerName net w.kernel s ↔
    Keeps s.remoteAddress (peerName net w.kernel s) := by
  cases hkept : s.remoteAddress with
  | some addr => rw [Socket.getRemoteAddress, hkept, keeps_some_iff]
  | none =>
    refine iff_of_true ?_ (keeps_none _)
    rw [Socket.getRemoteAddress, hkept, peerName]
    cases net.getpeername w.kernel s.sock s.family with
    | none => rfl
    | some addr => rfl

theorem coherent_iff {t : Tracked κ} : t.Coherent net ↔
    (t.named = true → Keeps t.socket.localAddress (sockName net t.world.kernel t.socket)) ∧
      (t.peered = true → Keeps t.socket.remoteAddress (peerName net t.world.kernel t.socket)) := by
  constructor
  · rintro ⟨hname, hpeer⟩
    exact ⟨fun hnamed ↦ getLocalAddress_eq_iff.mp (hname hnamed),
      fun hpeered ↦ getRemoteAddress_eq_iff.mp (hpeer hpeered)⟩
  · rintro ⟨hname, hpeer⟩
    exact ⟨fun hnamed ↦ getLocalAddress_eq_iff.mpr (hname hnamed),
      fun hpeered ↦ getRemoteAddress_eq_iff.mpr (hpeer hpeered)⟩

/-- Asking for the own address changes nothing, or keeps the reported one where none was kept. -/
theorem getLocalAddress_cases (net : NetOs κ) (s : Socket) (w : World κ) :
    (s.getLocalAddress net w).2 = s ∨ (s.localAddress = none ∧
      (s.getLocalAddress net w).2 =
        { s with localAddress := some (sockName net w.kernel s) }) := by
  cases hkept : s.localAddress with
  | some addr =>
    rw [Socket.getLocalAddress, hkept]
    exact Or.inl rfl
  | none =>
    rw [Socket.getLocalAddress, hkept]
    cases hreported : net.getsockname w.kernel s.sock s.family with
    | none => exact Or.inl rfl
    | some addr =>
      refine Or.inr ⟨rfl, ?_⟩
      rw [sockName, hreported]
      rfl

theorem getRemoteAddress_cases (net : NetOs κ) (s : Socket) (w : World κ) :
    (s.getRemoteAddress net w).2 = s ∨ (s.remoteAddress = none ∧
      (s.getRemoteAddress net w).2 =
        { s with remoteAddress := some (peerName net w.kernel s) }) := by
  cases hkept : s.remoteAddress with
  | some addr =>
    rw [Socket.getRemoteAddress, hkept]
    exact Or.inl rfl
  | none =>
    rw [Socket.getRemoteAddress, hkept]
    cases hreported : net.getpeername w.kernel s.sock s.family with
    | none => exact Or.inl rfl
    | some addr =>
      refine Or.inr ⟨rfl, ?_⟩
      rw [peerName, hreported]
      rfl

end Answers

/-! ### Steps -/

section Steps

variable {net locals thread waiting} {t : Tracked κ} {s socket opened : Socket}
  {w world : World κ} {addr : Address} {pointer : Pointer} {timeout : UInt64}

/-- Opening a descriptor leaves both kept addresses and the family alone. -/
theorem ensureSocket_keeps
    (hopened : Socket.ensureSocket net locals thread s w = .ok (opened, world)) :
    opened.localAddress = s.localAddress ∧ opened.remoteAddress = s.remoteAddress ∧
      opened.family = s.family := by
  rcases Socket.ensureSocket_cases hopened with ⟨-, rfl, -⟩ | ⟨-, sock, hsock, rfl⟩
  · exact ⟨rfl, rfl, rfl⟩
  · exact ⟨rfl, rfl, rfl⟩

/-- What `bind` does when it returns: it has no descriptor, or the families differ, or it asks the
kernel, and returns whether that accepts. It leaves the socket as it was opened. -/
theorem bind_cases {ret : Bool}
    (hbind : s.bind net locals thread addr pointer w = .ok (ret, socket, world)) :
    ∃ next, Socket.ensureSocket net locals thread { s with localAddress := some addr } w =
        .ok (socket, next) ∧
      ((socket.sock = -1 ∧ ret = false) ∨
        (socket.sock ≠ -1 ∧ socket.family ≠ addr.family ∧ ret = false ∧ world = next) ∨
        (socket.sock ≠ -1 ∧ socket.family = addr.family ∧
          (ret = true ↔
            (net.bind socket.sock pointer addr.addrLen next.kernel).1.value = 0) ∧
          world.kernel = (net.bind socket.sock pointer addr.addrLen next.kernel).2)) := by
  obtain ⟨⟨opened, next⟩, hopened, hrest⟩ := bind_eq_ok hbind
  dsimp only at hrest
  split_ifs at hrest with hclosed hfamily hrefused
  · cases hrest
    exact ⟨_, hopened, Or.inl ⟨hclosed, rfl⟩⟩
  · cases hrest
    exact ⟨_, hopened, Or.inr (Or.inl ⟨hclosed, hfamily, rfl, rfl⟩)⟩
  · cases hrest
    refine ⟨_, hopened, Or.inr (Or.inr ⟨hclosed, not_not.mp hfamily, ?_, rfl⟩)⟩
    exact iff_of_false Bool.false_ne_true hrefused
  · have hkept : ∀ world : World κ, (opened.getLocalAddress net world).2 = opened := by
      intro world
      rw [Socket.getLocalAddress, (ensureSocket_keeps hopened).1]
    rw [hkept] at hrest
    cases hrest
    refine ⟨_, hopened, Or.inr (Or.inr ⟨hclosed, not_not.mp hfamily, ?_, rfl⟩)⟩
    exact iff_of_true rfl (not_not.mp hrefused)

/-- What `connect` does when it returns: it has no descriptor, or the families differ, or the hook
refuses, or the hook answers 0 and the given address is kept for the other end. -/
theorem connect_cases {result : Socket.Result κ}
    (hconnect : s.connect net locals thread waiting addr pointer timeout w = .ok result) :
    ∃ opened next, Socket.ensureSocket net locals thread { s with remoteAddress := some addr } w =
        .ok (opened, next) ∧
      ((opened.sock = -1 ∧ result.socket = opened) ∨
        (opened.sock ≠ -1 ∧ addr.family ≠ opened.family ∧ result.ret = false ∧
          result.socket = opened ∧ result.world = next) ∨
        (opened.sock ≠ -1 ∧ addr.family = opened.family ∧ ∃ answer,
          opened.connectCall net locals thread waiting addr pointer timeout next = .ok answer ∧
          ((answer.value ≠ 0 ∧ result.socket.sock = -1) ∨
            (answer.value = 0 ∧ result.ret = true ∧ result.world = answer.world ∧
              ∃ hopen, result.socket =
                ((opened.established hopen).getLocalAddress net answer.world).2)))) := by
  cases hopened : Socket.ensureSocket net locals thread { s with remoteAddress := some addr } w with
  | error stop =>
    rw [Socket.connect, hopened] at hconnect
    cases hconnect
  | ok found =>
    obtain ⟨opened, next⟩ := found
    refine ⟨opened, next, rfl, ?_⟩
    by_cases hclosed : opened.sock = -1
    · cases (Socket.connect_of_closed hopened hclosed).symm.trans hconnect
      exact Or.inl ⟨hclosed, rfl⟩
    by_cases hfamily : addr.family = opened.family
    · right; right
      refine ⟨hclosed, hfamily, ?_⟩
      cases hcall : opened.connectCall net locals thread waiting addr pointer timeout next with
      | error stop =>
        cases (Socket.connect_of_error hopened hclosed hfamily hcall).symm.trans hconnect
      | ok answer =>
        refine ⟨answer, rfl, ?_⟩
        by_cases hvalue : answer.value = 0
        · cases (Socket.connect_of_accepted hopened hclosed hfamily hcall hvalue).symm.trans
            hconnect
          refine Or.inr ⟨hvalue, rfl, rfl, hclosed, ?_⟩
          have hkept : (opened.established hclosed).remoteAddress = some addr :=
            (ensureSocket_keeps hopened).2.1
          rw [Socket.getRemoteAddress, hkept]
        · obtain ⟨closed, final, hresult, hsock, -⟩ :=
            Socket.connect_of_refused hopened hclosed hfamily hcall hvalue
          cases hresult.symm.trans hconnect
          exact Or.inl ⟨hvalue, hsock⟩
    · cases (Socket.connect_of_family_ne hopened hclosed hfamily).symm.trans hconnect
      exact Or.inr (Or.inl ⟨hclosed, hfamily, rfl, rfl, rfl⟩)

/-- `close` leaves no descriptor. -/
theorem close_sock {ret : Bool} (hclose : s.close net thread w = .ok (ret, socket, world)) :
    socket.sock = -1 := by
  by_cases hopen : s.sock = -1
  · unfold Socket.close at hclose
    split_ifs at hclose with hnothing
    · cases hclose
      exact hopen
    · cases hclose
      rfl
  · obtain ⟨closed, next, hclosed, hsock, -⟩ := Socket.close_open net thread s w hopen
    cases hclosed.symm.trans hclose
    exact hsock

/-- A socket without a descriptor is coherent. -/
theorem coherent_of_closed (hclosed : t.socket.sock = -1) : t.Coherent net := by
  obtain ⟨hnamed, hpeered⟩ := t.closed hclosed
  constructor
  · intro h
    rw [hnamed] at h
    cases h
  · intro h
    rw [hpeered] at h
    cases h

/-- The marks of a descriptor that is there after a call. -/
theorem mark_of_open (hopen : socket.sock ≠ -1) (old set : Bool) :
    mark socket old set = true ↔ old = true ∨ set = true := by
  rw [mark, if_neg hopen, Bool.or_eq_true]

/-- Assumes: a mark of the current descriptor. There is nothing to open. -/
theorem opened_of_mark {t : Tracked κ} {asked : Socket}
    (hmark : t.named = true ∨ t.peered = true)
    (hopened : Socket.ensureSocket net locals thread asked w = .ok (opened, world))
    (hsock : asked.sock = t.socket.sock) : opened = asked ∧ world = w := by
  rcases Socket.ensureSocket_cases hopened with ⟨-, hsame, hworld⟩ | ⟨hclosed, -⟩
  · exact ⟨hsame, hworld⟩
  · obtain ⟨hnamed, hpeered⟩ := t.closed (hsock ▸ hclosed)
    rw [hnamed, hpeered] at hmark
    exact absurd hmark (by decide)

/-- Assumes: `bind` returns. The socket is coherent afterwards if and only if the call agrees with
what the kernel reports. -/
theorem bind_coherent_iff {ret : Bool}
    (hbind : t.socket.bind net locals thread addr pointer t.world = .ok (ret, socket, world)) :
    (t.note socket world ret false).Coherent net ↔
      t.Agrees net locals thread waiting (.bind addr pointer) := by
  obtain ⟨next, hopened, hcases⟩ := bind_cases hbind
  obtain ⟨hlocal, hremote, -⟩ := ensureSocket_keeps hopened
  have hagrees : t.Agrees net locals thread waiting (.bind addr pointer) ↔
      (socket.sock ≠ -1 → t.BindAgrees net addr pointer socket next) := by
    constructor
    · exact fun h ↦ h socket next hopened
    · intro h opened other hopened'
      cases hopened.symm.trans hopened'
      exact h
  rw [hagrees]
  rcases hcases with ⟨hclosed, -⟩ | ⟨hopen, hfamily, rfl, rfl⟩ | ⟨hopen, hfamily, hret, hkernel⟩
  · exact iff_of_true (coherent_of_closed hclosed) fun hopen ↦ absurd hclosed hopen
  · rw [coherent_iff, forall_prop_of_true hopen]
    simp only [note, mark_of_open hopen, BindAgrees, hfamily, hlocal, hremote, keeps_some_iff,
      false_and, or_false, if_false, Bool.false_eq_true]
  · rw [coherent_iff, forall_prop_of_true hopen]
    simp only [note, mark_of_open hopen, BindAgrees, hfamily, hlocal, hremote, keeps_some_iff,
      true_and, or_false, if_true, hret, hkernel, Bool.false_eq_true]

/-- Assumes: a coherent socket, for which `connect` returns. It is coherent afterwards if and only
if the call agrees with what the kernel reports. -/
theorem connect_coherent_iff (ht : t.Coherent net) {result : Socket.Result κ}
    (hconnect : t.socket.connect net locals thread waiting addr pointer timeout t.world =
      .ok result) :
    (t.note result.socket result.world result.ret result.ret).Coherent net ↔
      t.Agrees net locals thread waiting (.connect addr pointer timeout) := by
  obtain ⟨opened, next, hopened, hcases⟩ := connect_cases hconnect
  obtain ⟨hlocal, hremote, -⟩ := ensureSocket_keeps hopened
  have hagrees : t.Agrees net locals thread waiting (.connect addr pointer timeout) ↔
      (opened.sock ≠ -1 →
        t.ConnectAgrees net locals thread waiting addr pointer timeout opened next) := by
    constructor
    · exact fun h ↦ h opened next hopened
    · intro h other world hopened'
      cases hopened.symm.trans hopened'
      exact h
  rw [hagrees]
  rcases hcases with ⟨hclosed, hsocket⟩ | ⟨hopen, hfamily, hret, hsocket, hworld⟩ |
    ⟨hopen, hfamily, answer, hcall, ⟨hvalue, hclosed⟩ | ⟨hvalue, hret, hworld, hopen', hsocket⟩⟩
  · refine iff_of_true (coherent_of_closed ?_) fun hopen ↦ absurd hclosed hopen
    exact (congrArg Socket.sock hsocket).trans hclosed
  · -- the descriptor stays, and with it the address of its own end
    rw [coherent_iff, forall_prop_of_true hopen, hsocket, hworld, hret]
    have hown : t.named = true → Keeps t.socket.localAddress (sockName net next.kernel opened) := by
      intro hnamed
      obtain ⟨rfl, rfl⟩ := opened_of_mark (Or.inl hnamed) hopened rfl
      exact (coherent_iff.mp ht).1 hnamed
    simp only [note, mark_of_open hopen, hlocal, hremote, keeps_some_iff, ConnectAgrees,
      Bool.false_eq_true, or_false]
    constructor
    · exact fun h ↦ ⟨fun _ ↦ h.2, fun heq ↦ absurd heq hfamily⟩
    · exact fun h ↦ ⟨hown, h.1 hfamily⟩
  · refine iff_of_true (coherent_of_closed hclosed) fun _ ↦ ⟨fun hne ↦ absurd hfamily hne, ?_⟩
    intro _ answer' hcall' hvalue'
    cases hcall.symm.trans hcall'
    exact absurd hvalue' hvalue
  · -- both addresses are kept from here on
    have hkept : (t.note result.socket result.world result.ret result.ret).Coherent net ↔
        Keeps result.socket.localAddress (sockName net answer.world.kernel result.socket) ∧
          Keeps result.socket.remoteAddress (peerName net answer.world.kernel result.socket) := by
      have hsock : result.socket.sock ≠ -1 := by
        rw [hsocket, (Socket.getLocalAddress_keeps net _ _).1]
        exact hopen
      rw [coherent_iff]
      simp only [note, mark_of_open hsock, hret, hworld, or_true, forall_const]
    have hasked : opened.remoteAddress = some addr := hremote
    rw [hkept, forall_prop_of_true hopen]
    have hanswers : t.ConnectAgrees net locals thread waiting addr pointer timeout opened next ↔
        addr = peerName net answer.world.kernel opened ∧
          Keeps t.socket.localAddress (sockName net answer.world.kernel opened) := by
      constructor
      · exact fun h ↦ h.2 hfamily answer hcall hvalue
      · refine fun h ↦ ⟨fun hne ↦ absurd hfamily hne, fun _ answer' hcall' _ ↦ ?_⟩
        cases hcall.symm.trans hcall'
        exact h
    rw [hanswers, hsocket]
    rcases getLocalAddress_cases net (opened.established hopen') answer.world with
      hsame | ⟨hnone, hfilled⟩
    · rw [hsame]
      change Keeps opened.localAddress (sockName net answer.world.kernel opened) ∧
        Keeps opened.remoteAddress (peerName net answer.world.kernel opened) ↔ _
      rw [hlocal, hasked, keeps_some_iff]
      exact and_comm
    · rw [hfilled]
      change Keeps (some (sockName net answer.world.kernel opened))
          (sockName net answer.world.kernel opened) ∧
        Keeps opened.remoteAddress (peerName net answer.world.kernel opened) ↔ _
      have hempty : t.socket.localAddress = none := hlocal.symm.trans hnone
      rw [hempty, hasked, keeps_some_iff, keeps_some_iff]
      exact ⟨fun h ↦ ⟨h.2, keeps_none _⟩, fun h ↦ ⟨rfl, h.1⟩⟩

/-- A call that sets no mark leaves at most those that were there. -/
theorem mark_of_mark_false {old : Bool} (hmark : mark socket old false = true) : old = true := by
  unfold mark at hmark
  split_ifs at hmark
  exact (Bool.or_false old).symm.trans hmark

/-- Asking for an address keeps a socket coherent. -/
theorem Coherent.getLocalAddress (ht : t.Coherent net) :
    (t.note (t.socket.getLocalAddress net t.world).2 t.world false false).Coherent net := by
  rw [coherent_iff] at ht ⊢
  simp only [note]
  rcases getLocalAddress_cases net t.socket t.world with hsame | ⟨-, hfilled⟩
  · rw [hsame]
    exact ⟨fun h ↦ ht.1 (mark_of_mark_false h), fun h ↦ ht.2 (mark_of_mark_false h)⟩
  · rw [hfilled]
    exact ⟨fun _ ↦ keeps_some_iff.mpr rfl, fun h ↦ ht.2 (mark_of_mark_false h)⟩

theorem Coherent.getRemoteAddress (ht : t.Coherent net) :
    (t.note (t.socket.getRemoteAddress net t.world).2 t.world false false).Coherent net := by
  rw [coherent_iff] at ht ⊢
  simp only [note]
  rcases getRemoteAddress_cases net t.socket t.world with hsame | ⟨-, hfilled⟩
  · rw [hsame]
    exact ⟨fun h ↦ ht.1 (mark_of_mark_false h), fun h ↦ ht.2 (mark_of_mark_false h)⟩
  · rw [hfilled]
    exact ⟨fun h ↦ ht.1 (mark_of_mark_false h), fun _ ↦ keeps_some_iff.mpr rfl⟩

/-- Assumes: a coherent socket, and a call that returns. The socket is coherent afterwards if and
only if the call agrees with what the kernel reports. -/
theorem step_coherent_iff (ht : t.Coherent net) {action : Action} {output : Output}
    {next : Tracked κ}
    (hstep : t.step net locals thread waiting action = .ok (output, next)) :
    next.Coherent net ↔ t.Agrees net locals thread waiting action := by
  cases action with
  | bind addr pointer =>
    cases hbind : t.socket.bind net locals thread addr pointer t.world with
    | error stop =>
      rw [step, hbind] at hstep
      cases hstep
    | ok result =>
      rw [step, hbind] at hstep
      cases hstep
      exact bind_coherent_iff hbind
  | connect addr pointer timeout =>
    cases hconnect : t.socket.connect net locals thread waiting addr pointer timeout t.world with
    | error stop =>
      rw [step, hconnect] at hstep
      cases hstep
    | ok result =>
      rw [step, hconnect] at hstep
      cases hstep
      exact connect_coherent_iff ht hconnect
  | close =>
    cases hclose : t.socket.close net thread t.world with
    | error stop =>
      rw [step, hclose] at hstep
      cases hstep
    | ok result =>
      rw [step, hclose] at hstep
      cases hstep
      exact iff_of_true (coherent_of_closed (close_sock hclose)) trivial
  | getLocalAddress =>
    cases hstep
    exact iff_of_true ht.getLocalAddress trivial
  | getRemoteAddress =>
    cases hstep
    exact iff_of_true ht.getRemoteAddress trivial

end Steps

/-! ### Runs -/

/-- Assumes: a run on a new socket whose calls all agree with what the kernel reports. The socket is
coherent at its end. -/
theorem coherent_in_every_run {net : NetOs κ} {locals : Locals net.toOs} {thread : Thread}
    {waiting : Waiting κ} {family type protocol : ℤ} {world : World κ}
    {trace : List (Action × Output)} {final : Tracked κ}
    (hrun : Run (step net locals thread waiting) (Agrees net locals thread waiting)
      (start family type protocol world) trace final) : final.Coherent net := by
  let reached : List (Action × Output) → Tracked κ → Prop := fun _ now ↦ now.Coherent net
  have hstart : reached [] (start family type protocol world) := coherent_of_closed rfl
  have hfinal : reached trace final := by
    refine hrun.history_invariant hstart ?_
    intro trace now action output next hnow hagrees hstep
    exact (step_coherent_iff hnow hstep).mpr hagrees
  exact hfinal

/-- A kernel that binds every socket, to port 8080. -/
def reportingNet : NetOs (Int64 × Int64) :=
  { Socket.refusingNet with getsockname := fun _ _ _ ↦ some ⟨2, [0x1f, 0x90]⟩ }

/-- The same kernel with a peer that accepts every connection at port 80. -/
def connectingNet : NetOs (Int64 × Int64) :=
  { reportingNet with
    call := fun _ kernel ↦ (⟨0, 0⟩, kernel)
    getpeername := fun _ _ _ ↦ some ⟨2, [0, 80]⟩ }

/-- The local variables over its memory. -/
def connectingLocals : Locals connectingNet.toOs := { Socket.refusingLocals with }

/-- A socket that is bound to port 8080 and connected to the peer, closed, bound to the port and
connected once more. -/
theorem coherent_bound_to_port : ∃ (trace : List (Action × Output)) (final : Tracked _),
    Run (step connectingNet connectingLocals ⟨false, true⟩ Socket.quietWaiting)
        (Agrees connectingNet connectingLocals ⟨false, true⟩ Socket.quietWaiting)
        (start 2 1 0 (World.init (0, 0))) trace final ∧
      trace.map Prod.fst = [.bind ⟨2, [0x1f, 0x90]⟩ 8, .connect ⟨2, [0, 80]⟩ 9 1000, .close,
        .bind ⟨2, [0x1f, 0x90]⟩ 8, .connect ⟨2, [0, 80]⟩ 9 1000] ∧
      final.named = true ∧ final.peered = true ∧ final.Coherent connectingNet := by
  have hempty : Run (step connectingNet connectingLocals ⟨false, true⟩ Socket.quietWaiting)
      (Agrees connectingNet connectingLocals ⟨false, true⟩ Socket.quietWaiting)
      (start 2 1 0 (World.init (0, 0))) [] (start 2 1 0 (World.init (0, 0))) := Run.nil
  -- every kept address is the one that the kernel reports for every descriptor
  have hbind {t : Tracked (Int64 × Int64)} (hkept : t.peered = false) :
      Agrees connectingNet connectingLocals ⟨false, true⟩ Socket.quietWaiting t
        (.bind ⟨2, [0x1f, 0x90]⟩ 8) := by
    intro opened world hopened _
    refine ⟨fun _ ↦ ?_, fun hpeered ↦ absurd (hkept.symm.trans hpeered) Bool.false_ne_true⟩
    rfl
  have hconnect {t : Tracked (Int64 × Int64)}
      (hkept : t.socket.localAddress = some ⟨2, [0x1f, 0x90]⟩) :
      Agrees connectingNet connectingLocals ⟨false, true⟩ Socket.quietWaiting t
        (.connect ⟨2, [0, 80]⟩ 9 1000) := by
    intro opened world hopened _
    refine ⟨fun _ _ ↦ rfl, fun _ answer _ _ ↦ ⟨rfl, ?_⟩⟩
    rw [hkept]
    exact keeps_some_iff.mpr rfl
  have hclose (t : Tracked (Int64 × Int64)) : Agrees connectingNet connectingLocals ⟨false, true⟩
      Socket.quietWaiting t .close := trivial
  have hbound := hempty.snoc (hbind rfl) rfl
  have hconnected := hbound.snoc (hconnect rfl) rfl
  have hclosed := hconnected.snoc (hclose _) rfl
  have hrebound := hclosed.snoc (hbind rfl) rfl
  have hrun := hrebound.snoc (hconnect rfl) rfl
  exact ⟨_, _, hrun, rfl, rfl, rfl, coherent_in_every_run hrun⟩

/-- A socket that is bound to port 0 answers that its port is 0. -/
theorem not_coherent_bound_to_any_port : ∃ (trace : List (Action × Output)) (final : Tracked _),
    Run (step reportingNet Socket.refusingLocals ⟨false, true⟩ Socket.quietWaiting)
        (fun _ _ ↦ True) (start 2 1 0 (World.init (0, 0))) trace final ∧
      trace = [(.bind ⟨2, [0, 0]⟩ 8, .done true)] ∧ final.named = true ∧
      (final.socket.getLocalAddress reportingNet final.world).1 = ⟨2, [0, 0]⟩ ∧
      ¬ final.Coherent reportingNet := by
  refine ⟨_, _, Run.nil.snoc trivial rfl, rfl, rfl, rfl, fun hcoherent ↦ ?_⟩
  exact absurd (hcoherent.sockName_eq rfl) (by decide)

end Tracked

end Cczoe.Sockets
