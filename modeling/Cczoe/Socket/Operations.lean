import Cczoe.Hook.Wrappers

/-!
# The operations of `socket.cpp`

A `Socket` opens a descriptor when it first needs one, binds it, connects it and closes it, through
the hooks of `hook.cpp` where there is one, and keeps the addresses of both ends once it knows them.
`connectWithTimeout`, which only `Socket::connect` calls, is here too.

The functions of the system are a parameter, and so is what the rest of the program does while a
fiber waits in `connectWithTimeout` (`Waiting`). Answers carry the call of the original `connect`
that was made, if any.
-/

set_option autoImplicit false
set_option relaxedAutoImplicit false

namespace Cczoe.Sockets

open Cczoe.Hook (Os World Thread Pointer Call Reply)

/-- `Address`: the family and the rest of its `sockaddr`. -/
structure Address where
  family : ℤ
  data : List UInt8
  deriving DecidableEq, Repr

/-- `getAddrLen`. -/
def Address.addrLen (addr : Address) : UInt32 := UInt32.ofNat (2 + addr.data.length)

/-- `UnknownAddress(family)`. -/
def unknownAddress (family : ℤ) : Address := ⟨family, List.replicate 14 0⟩

/-- The functions that a socket calls. `getsockname` and `getpeername` give what is written into a
new address object for a family, unless they fail. -/
structure NetOs (κ : Type) extends Os κ where
  bind : ℤ → Pointer → UInt32 → κ → Reply × κ
  getsockname : κ → ℤ → ℤ → Option Address
  getpeername : κ → ℤ → ℤ → Option Address

/-- The local variables that are passed on by pointer. What is stored in `tv` is read back. -/
structure Locals {κ : Type} (os : Os κ) where
  tv : Pointer
  val : Pointer
  error : Pointer
  len : Pointer
  storeTime : Int64 → Int64 → κ → κ
  storeInt : Pointer → BitVec 32 → κ → κ
  readTime_storeTime : ∀ sec usec kernel,
    os.readTime (storeTime sec usec kernel) tv = some (sec, usec)

/-- The rest of the program, as `connectWithTimeout` depends on it. `addEvent` is
`iom->addEvent(fd, WRITE)`. `resume` is what happens from the yield until the fiber goes on, and
whether the callback of the timer has set `cancelled` by then. -/
structure Waiting (κ : Type) where
  addEvent : ℤ → World κ → ℕ × World κ
  resume : ℤ → UInt64 → World κ → Bool × World κ

/-- What an operation stops with when it does not return: a fault of a hook, or an exception. -/
inductive Stop
  | fault (fault : Hook.Fault)
  | logicError (what : String)
  deriving DecidableEq, Repr

/-- `EINPROGRESS`. -/
def einprogress : ℤ := 115

/-- `ETIMEDOUT`. -/
def etimedout : ℤ := 110

/-- `SO_REUSEADDR`. -/
def soReuseaddr : ℤ := 2

/-- `SO_ERROR`. -/
def soError : ℤ := 4

/-- `SOCK_STREAM`. -/
def sockStream : ℤ := 1

/-- `IPPROTO_TCP`. -/
def ipprotoTcp : ℤ := 6

/-- `TCP_NODELAY`. -/
def tcpNodelay : ℤ := 1

/-- `std::numeric_limits<uint64_t>::max()`, for no timeout. -/
def noTimeout : UInt64 := 0xffffffffffffffff

/-- `Socket`. A connected socket has a descriptor. -/
structure Socket where
  sock : ℤ := -1
  family : ℤ
  type : ℤ
  protocol : ℤ
  isConnected : Bool := false
  localAddress : Option Address := none
  remoteAddress : Option Address := none
  open_of_connected : isConnected = true → sock ≠ -1

/-- `Socket(family, type, protocol)`. -/
def Socket.new (family type protocol : ℤ) : Socket where
  family := family
  type := type
  protocol := protocol
  open_of_connected := fun hconnected ↦ absurd hconnected Bool.false_ne_true

section Hooks

variable {κ : Type}

/-- The value of a hook. The ones that a socket calls return without suspending the fiber. -/
def hooked (result : Except Hook.Fault (Hook.Outcome × World κ)) : Except Stop (ℤ × World κ) :=
  match result with
  | .error fault => .error (.fault fault)
  | .ok (.returned value, next) => .ok (value, next)
  | .ok (.blocks _ _ _ _, next) | .ok (.sleeps _ _, next) => .ok (-1, next)

/-- A call of the original `connect`, and the error that was asked for later. -/
structure Attempt where
  fd : ℤ
  addr : Pointer
  addrlen : UInt32
  value : ℤ
  soError : Option (BitVec 32) := none
  deriving DecidableEq, Repr

/-- The answer of `connect` or `connectWithTimeout`. -/
structure Answer (κ : Type) where
  value : ℤ
  attempt : Option Attempt
  world : World κ

variable (os : Os κ) (thread : Thread)

/-- `connect_f`. -/
def connectOriginal (fd : ℤ) (addr : Pointer) (addrlen : UInt32) (w : World κ) : Answer κ :=
  let reply := w.invoke os (.connect fd addr addrlen)
  ⟨reply.1, some ⟨fd, addr, addrlen, reply.1, none⟩, reply.2⟩

/-- The `connect` hook. -/
def connectHook (fd : ℤ) (addr : Pointer) (addrlen : UInt32) (w : World κ) : Answer κ :=
  if thread.hookEnable = false then connectOriginal os fd addr addrlen w else ⟨0, none, w⟩

variable (locals : Locals os) (waiting : Waiting κ)

/-- `connectWithTimeout` after its fiber goes on. -/
def finishConnect (attempt : Attempt) (cancelled : Bool) (w : World κ) : Answer κ :=
  if cancelled then ⟨-1, some attempt, { w with errno := etimedout }⟩
  else
    let reply := { w with kernel := locals.storeInt locals.error 0 w.kernel }.invoke os
      (.getsockopt attempt.fd Hook.solSocket soError locals.error locals.len)
    if reply.1 = -1 then ⟨-1, some attempt, reply.2⟩
    else
      let error := (os.readInt reply.2.kernel locals.error).getD 0
      let asked := { attempt with soError := some error }
      if error = 0 then ⟨0, some asked, reply.2⟩
      else ⟨-1, some asked, { reply.2 with errno := error.toInt }⟩

/-- `connectWithTimeout`. -/
def connectWithTimeout (fd : ℤ) (addr : Pointer) (addrlen : UInt32) (timeout : UInt64)
    (w : World κ) : Except Stop (Answer κ) :=
  if thread.hookEnable = false then .ok (connectOriginal os fd addr addrlen w)
  else
    match w.context fd with
    | none => .ok ⟨-1, none, { w with errno := Hook.ebadf }⟩
    | some (_, ctx) =>
      if ctx.isClosed then .ok ⟨-1, none, { w with errno := Hook.ebadf }⟩
      else if ctx.isSocket = false then .ok (connectOriginal os fd addr addrlen w)
      else if ctx.userNonblock then .ok (connectOriginal os fd addr addrlen w)
      else
        let first := connectOriginal os fd addr addrlen w
        if first.value = 0 then .ok first
        else if first.value ≠ -1 ∨ first.world.errno ≠ einprogress then .ok first
        else
          let added := waiting.addEvent fd first.world
          if added.1 ≠ 0 then
            .error (.logicError s!"connect addEvent({fd}, cczoe::IOManager::WRITE) error")
          else
            let resumed := waiting.resume fd timeout added.2
            .ok (finishConnect os locals ⟨fd, addr, addrlen, first.value, none⟩
              (resumed.1 && timeout != noTimeout) resumed.2)

end Hooks

namespace Socket

variable {κ : Type} (net : NetOs κ) (locals : Locals net.toOs) (thread : Thread)
  (waiting : Waiting κ)

/-- `setOption`. -/
def setOption (level optname : ℤ) (optval : Pointer) (optlen : UInt32) (s : Socket) (w : World κ) :
    Except Stop (Bool × World κ) :=
  (hooked (w.setsockopt net.toOs thread s.sock level optname optval optlen)).map fun answer ↦
    (answer.1 == 0, answer.2)

/-- The private `init()`. -/
def init (s : Socket) (w : World κ) : Except Stop (World κ) := do
  let stored := { w with kernel := locals.storeInt locals.val 1 w.kernel }
  let reused ← s.setOption net thread Hook.solSocket soReuseaddr locals.val 4 stored
  if s.type = sockStream then
    let delayed ← s.setOption net thread ipprotoTcp tcpNodelay locals.val 4 reused.2
    .ok delayed.2
  else .ok reused.2

/-- The front of `bind` and `connect`: a socket without a descriptor opens one. -/
def ensureSocket (s : Socket) (w : World κ) : Except Stop (Socket × World κ) :=
  if hclosed : s.sock = -1 then do
    let made ← hooked (w.socket net.toOs thread s.family s.type s.protocol)
    let opened : Socket := { s with
      sock := made.1
      open_of_connected := fun hconnected ↦ absurd hclosed (s.open_of_connected hconnected) }
    if made.1 = -1 then .ok (opened, made.2)
    else do
      let next ← opened.init net locals thread made.2
      .ok (opened, next)
  else .ok (s, w)

/-- `getLocalAddress`. -/
def getLocalAddress (s : Socket) (w : World κ) : Address × Socket :=
  match s.localAddress with
  | some addr => (addr, s)
  | none =>
    match net.getsockname w.kernel s.sock s.family with
    | none => (unknownAddress s.family, s)
    | some addr => (addr, { s with localAddress := some addr })

/-- `getRemoteAddress`. -/
def getRemoteAddress (s : Socket) (w : World κ) : Address × Socket :=
  match s.remoteAddress with
  | some addr => (addr, s)
  | none =>
    match net.getpeername w.kernel s.sock s.family with
    | none => (unknownAddress s.family, s)
    | some addr => (addr, { s with remoteAddress := some addr })

/-- `close`. It returns false when there was something to close. -/
def close (s : Socket) (w : World κ) : Except Stop (Bool × Socket × World κ) :=
  if s.isConnected = false ∧ s.sock = -1 then .ok (true, s, w)
  else
    let closed : Socket := { s with
      isConnected := false
      sock := -1
      open_of_connected := fun hconnected ↦ absurd hconnected Bool.false_ne_true }
    if s.sock = -1 then .ok (false, closed, w)
    else (hooked (w.close net.toOs thread s.sock)).map fun answer ↦ (false, closed, answer.2)

/-- `bind`, for an address object at a pointer. -/
def bind (addr : Address) (pointer : Pointer) (s : Socket) (w : World κ) :
    Except Stop (Bool × Socket × World κ) := do
  let opened ← { s with localAddress := some addr }.ensureSocket net locals thread w
  if opened.1.sock = -1 then .ok (false, opened.1, opened.2)
  else if opened.1.family ≠ addr.family then .ok (false, opened.1, opened.2)
  else
    let reply := net.bind opened.1.sock pointer addr.addrLen opened.2.kernel
    let next := { opened.2 with kernel := reply.2, errno := reply.1.errno }
    if reply.1.value ≠ 0 then .ok (false, opened.1, next)
    else .ok (true, (opened.1.getLocalAddress net next).2, next)

/-- What `connect` returns and leaves, with the call of the original `connect`. -/
structure Result (κ : Type) where
  ret : Bool
  attempt : Option Attempt
  socket : Socket
  world : World κ

/-- The `connect` or `connectWithTimeout` that `Socket::connect` calls. -/
def connectCall (addr : Address) (pointer : Pointer) (timeout : UInt64) (s : Socket) (w : World κ) :
    Except Stop (Answer κ) :=
  if timeout = noTimeout then .ok (connectHook net.toOs thread s.sock pointer addr.addrLen w)
  else connectWithTimeout net.toOs thread locals waiting s.sock pointer addr.addrLen timeout w

/-- `connect`, for an address object at a pointer. -/
def connect (addr : Address) (pointer : Pointer) (timeout : UInt64) (s : Socket) (w : World κ) :
    Except Stop (Result κ) := do
  let opened ← { s with remoteAddress := some addr }.ensureSocket net locals thread w
  if hopen : opened.1.sock = -1 then .ok ⟨false, none, opened.1, opened.2⟩
  else if addr.family ≠ opened.1.family then .ok ⟨false, none, opened.1, opened.2⟩
  else
    let answer ← opened.1.connectCall net locals thread waiting addr pointer timeout opened.2
    if answer.value ≠ 0 then
      let closed ← opened.1.close net thread answer.world
      .ok ⟨false, answer.attempt, closed.2.1, closed.2.2⟩
    else
      let connected : Socket := { opened.1 with
        isConnected := true
        open_of_connected := fun _ ↦ hopen }
      let named := (connected.getRemoteAddress net answer.world).2
      .ok ⟨true, answer.attempt, (named.getLocalAddress net answer.world).2, answer.world⟩

/-- The seconds and microseconds of a timeout in milliseconds, `timeout % 1000 * 1000` cast to
`int`. -/
def timevalOf (timeout : Int64) : Int64 × Int64 :=
  (timeout / 1000, (timeout % 1000 * 1000).toInt32.toInt64)

/-- The common body of `setSendTimeout` and `setRecvTimeout`. -/
def setTimeout (optname : ℤ) (timeout : Int64) (s : Socket) (w : World κ) :
    Except Stop (Bool × World κ) :=
  let tv := timevalOf timeout
  s.setOption net thread Hook.solSocket optname locals.tv 16
    { w with kernel := locals.storeTime tv.1 tv.2 w.kernel }

/-- `setSendTimeout`. -/
def setSendTimeout (timeout : Int64) (s : Socket) (w : World κ) :
    Except Stop (Bool × World κ) :=
  s.setTimeout net locals thread Hook.soSndtimeo timeout w

/-- `setRecvTimeout`. -/
def setRecvTimeout (timeout : Int64) (s : Socket) (w : World κ) :
    Except Stop (Bool × World κ) :=
  s.setTimeout net locals thread Hook.soRcvtimeo timeout w

/-- The common body of `getSendTimeout` and `getRecvTimeout`. -/
def getTimeout (type : ℤ) (s : Socket) (w : World κ) : UInt64 :=
  match w.context s.sock with
  | some (_, ctx) => ctx.getTimeout type
  | none => noTimeout

/-- `getSendTimeout`. -/
def getSendTimeout (s : Socket) (w : World κ) : UInt64 := s.getTimeout Hook.soSndtimeo w

/-- `getRecvTimeout`. -/
def getRecvTimeout (s : Socket) (w : World κ) : UInt64 := s.getTimeout Hook.soRcvtimeo w

end Socket

end Cczoe.Sockets
