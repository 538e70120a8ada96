import Cczoe.Hook.FdTable
import Cczoe.Scheduler.EventTable

/-!
# The hooked functions of `hook.cpp`

Every hook tests `t_hookEnable` on its own, and those that can block go through `do_io`. A hook
returns a value, or suspends the calling fiber: then it enters the retry loop of `do_io`, or it
sleeps. The outcome says which; what happens in the loop is not part of this module.
-/

set_option autoImplicit false
set_option relaxedAutoImplicit false

namespace Cczoe.Hook

open Cczoe.Scheduler (Event)

/-- What the hooks read of the calling thread: `t_hookEnable`, and whether there is an
`IOManager::GetThis()`. -/
structure Thread where
  hookEnable : Bool
  hasIom : Bool
  deriving DecidableEq, Repr

/-- How a hook ends, or how it suspends the fiber. -/
inductive Outcome
  | returned (value : ℤ)
  /-- The retry loop of `do_io` for a call, on an event with a timeout. -/
  | blocks (call : Call) (fd : ℤ) (event : Event) (timeout : UInt64)
  /-- A timer is added, before the fiber yields or after it. -/
  | sleeps (ms : UInt64) (timerFirst : Bool)
  deriving DecidableEq, Repr

/-- `EBADF`. -/
def ebadf : ℤ := 9

/-- `SOL_SOCKET`. -/
def solSocket : ℤ := 1

/-- `SO_RCVTIMEO`. -/
def soRcvtimeo : ℤ := 20

/-- `SO_SNDTIMEO`. -/
def soSndtimeo : ℤ := 21

/-- `FIONBIO`. -/
def fionbio : UInt64 := 0x5421

/-- `static_cast<size_t>(fd)`. -/
def index (fd : ℤ) : ℕ := (fd % 2 ^ 64).toNat

namespace FdCtx

/-- `FdCtx::getTimeout`. -/
def getTimeout (ctx : FdCtx) (type : ℤ) : UInt64 :=
  if type = soRcvtimeo then ctx.recvTimeout else ctx.sendTimeout

/-- `FdCtx::setTimeout`. -/
def setTimeout (ctx : FdCtx) (type : ℤ) (val : UInt64) : FdCtx :=
  if type = soRcvtimeo then { ctx with recvTimeout := val } else { ctx with sendTimeout := val }

end FdCtx

namespace World

variable {κ : Type} (os : Os κ) (thread : Thread)

/-- The context that `get(fd)` returns, with its number. -/
def context (w : World κ) (fd : ℤ) : Option (ℕ × FdCtx) :=
  w.data[index fd]?.join.bind fun number ↦ w.contexts[number]?.map fun ctx ↦ (number, ctx)

/-- A context changes. -/
def setContext (w : World κ) (number : ℕ) (ctx : FdCtx) : World κ :=
  { w with contexts := w.contexts.set number ctx }

/-- A call of the original function, whose result is returned. -/
def original (call : Call) (w : World κ) : Except Fault (Outcome × World κ) :=
  let answer := w.invoke os call
  .ok (.returned answer.1, answer.2)

/-- `do_io` up to its retry loop. -/
def doIo (fd : ℤ) (call : Call) (event : Event) (soTimeout : ℤ) (w : World κ) :
    Except Fault (Outcome × World κ) :=
  if thread.hookEnable = false then w.original os call
  else
    match w.context fd with
    | none => w.original os call
    | some (_, ctx) =>
      if ctx.isClosed then .ok (.returned (-1), { w with errno := ebadf })
      else if ctx.isSocket = false ∨ ctx.userNonblock then w.original os call
      else .ok (.blocks call fd event (ctx.getTimeout soTimeout), w)

/-- `sleep`, which yields before it adds the timer. -/
def sleep (seconds : UInt32) (w : World κ) : Except Fault (Outcome × World κ) :=
  if thread.hookEnable = false then w.original os (.sleep seconds)
  else .ok (.sleeps (seconds * 1000).toUInt64 false, w)

/-- `usleep`. -/
def usleep (usec : UInt32) (w : World κ) : Except Fault (Outcome × World κ) :=
  if thread.hookEnable = false then w.original os (.usleep usec)
  else .ok (.sleeps (usec / 1000).toUInt64 true, w)

/-- `nanosleep`. -/
def nanosleep (req rem : Pointer) (w : World κ) : Except Fault (Outcome × World κ) :=
  if thread.hookEnable = false then w.original os (.nanosleep req rem)
  else
    match os.readTime w.kernel req with
    | none => .error .badPointer
    | some (sec, nsec) => .ok (.sleeps (sec * 1000 + nsec / 1000000).toUInt64 true, w)

/-- `socket`. -/
def socket (domain type protocol : ℤ) (w : World κ) : Except Fault (Outcome × World κ) :=
  if thread.hookEnable = false then w.original os (.socket domain type protocol)
  else
    let answer := w.invoke os (.socket domain type protocol)
    if answer.1 = -1 then .ok (.returned answer.1, answer.2)
    else (answer.2.get os (index answer.1) true).map fun made ↦ (.returned answer.1, made.2)

/-- `connect`, which calls nothing when hooking is on. -/
def connect (fd : ℤ) (addr : Pointer) (addrlen : UInt32) (w : World κ) :
    Except Fault (Outcome × World κ) :=
  if thread.hookEnable = false then w.original os (.connect fd addr addrlen)
  else .ok (.returned 0, w)

/-- `accept`. Where `do_io` suspends the fiber, what follows here comes after its loop. -/
def accept (fd : ℤ) (addr addrlen : Pointer) (w : World κ) : Except Fault (Outcome × World κ) :=
  match w.doIo os thread fd (.accept fd addr addrlen) .read soRcvtimeo with
  | .error fault => .error fault
  | .ok (.returned value, next) =>
    if value ≥ 0 then (next.get os (index value) true).map fun made ↦ (.returned value, made.2)
    else .ok (.returned value, next)
  | .ok (outcome, next) => .ok (outcome, next)

/-- `read`. -/
def read (fd : ℤ) (buf : Pointer) (count : UInt64) : World κ → Except Fault (Outcome × World κ) :=
  doIo os thread fd (.read fd buf count) .read soRcvtimeo

/-- `readv`. -/
def readv (fd : ℤ) (iov : Pointer) (iovcnt : ℤ) : World κ → Except Fault (Outcome × World κ) :=
  doIo os thread fd (.readv fd iov iovcnt) .read soRcvtimeo

/-- `recv`. -/
def recv (fd : ℤ) (buf : Pointer) (len : UInt64) (flags : ℤ) :
    World κ → Except Fault (Outcome × World κ) :=
  doIo os thread fd (.recv fd buf len flags) .read soRcvtimeo

/-- `recvfrom`. -/
def recvfrom (fd : ℤ) (buf : Pointer) (len : UInt64) (flags : ℤ) (srcAddr addrlen : Pointer) :
    World κ → Except Fault (Outcome × World κ) :=
  doIo os thread fd (.recvfrom fd buf len flags srcAddr addrlen) .read soRcvtimeo

/-- `recvmsg`. -/
def recvmsg (fd : ℤ) (msg : Pointer) (flags : ℤ) : World κ → Except Fault (Outcome × World κ) :=
  doIo os thread fd (.recvmsg fd msg flags) .read soRcvtimeo

/-- `write`. -/
def write (fd : ℤ) (buf : Pointer) (count : UInt64) : World κ → Except Fault (Outcome × World κ) :=
  doIo os thread fd (.write fd buf count) .write soSndtimeo

/-- `writev`. -/
def writev (fd : ℤ) (iov : Pointer) (iovcnt : ℤ) : World κ → Except Fault (Outcome × World κ) :=
  doIo os thread fd (.writev fd iov iovcnt) .write soSndtimeo

/-- `send`. -/
def send (fd : ℤ) (buf : Pointer) (len : UInt64) (flags : ℤ) :
    World κ → Except Fault (Outcome × World κ) :=
  doIo os thread fd (.send fd buf len flags) .write soSndtimeo

/-- `sendto`. -/
def sendto (fd : ℤ) (buf : Pointer) (len : UInt64) (flags : ℤ) (destAddr : Pointer)
    (addrlen : UInt32) : World κ → Except Fault (Outcome × World κ) :=
  doIo os thread fd (.sendto fd buf len flags destAddr addrlen) .write soSndtimeo

/-- `sendmsg`. -/
def sendmsg (fd : ℤ) (msg : Pointer) (flags : ℤ) : World κ → Except Fault (Outcome × World κ) :=
  doIo os thread fd (.sendmsg fd msg flags) .write soSndtimeo

/-- `close`. -/
def close (fd : ℤ) (w : World κ) : Except Fault (Outcome × World κ) :=
  if thread.hookEnable = false then w.original os (.close fd)
  else
    match w.context fd with
    | none => w.original os (.close fd)
    | some _ =>
      let cancelled := if thread.hasIom then w.cancelled ++ [fd] else w.cancelled
      ({ w with cancelled := cancelled }.del (index fd)).original os (.close fd)

/-- `va_arg(va, int)`, passed on to the original `fcntl`. -/
def fcntlInt (fd : ℤ) (cmd : FcntlCmd) (arg : Option (BitVec 64)) (w : World κ) :
    Except Fault (Outcome × World κ) :=
  match arg with
  | none => .error .missingArgument
  | some arg => w.original os (.fcntl fd cmd (some ((arg.setWidth 32).setWidth 64)))

/-- `va_arg(va, struct flock *)` and the like, passed on to the original `fcntl`. -/
def fcntlPointer (fd : ℤ) (cmd : FcntlCmd) (arg : Option (BitVec 64)) (w : World κ) :
    Except Fault (Outcome × World κ) :=
  match arg with
  | none => .error .missingArgument
  | some arg => w.original os (.fcntl fd cmd (some arg))

/-- `fcntl(fd, F_SETFL, arg)`. -/
def fcntlSetFl (fd : ℤ) (arg : Option (BitVec 64)) (w : World κ) :
    Except Fault (Outcome × World κ) :=
  match arg with
  | none => .error .missingArgument
  | some arg =>
    let flags := arg.setWidth 32
    match w.context fd with
    | none => w.original os (.fcntl fd .setFl (some (flags.setWidth 64)))
    | some (number, ctx) =>
      if ctx.isClosed ∨ ctx.isSocket = false then
        w.original os (.fcntl fd .setFl (some (flags.setWidth 64)))
      else
        let passed := if ctx.sysNonblock then flags ||| oNonblock else flags &&& ~~~oNonblock
        (w.setContext number { ctx with userNonblock := flags &&& oNonblock ≠ 0 }).original os
          (.fcntl fd .setFl (some (passed.setWidth 64)))

/-- `fcntl(fd, F_GETFL)`. -/
def fcntlGetFl (fd : ℤ) (w : World κ) : Except Fault (Outcome × World κ) :=
  let answer := w.invoke os (.fcntl fd .getFl none)
  match answer.2.context fd with
  | none => .ok (.returned answer.1, answer.2)
  | some (_, ctx) =>
    if ctx.isClosed ∨ ctx.isSocket = false then .ok (.returned answer.1, answer.2)
    else
      let arg := BitVec.ofInt 32 answer.1
      let shown := if ctx.userNonblock then arg ||| oNonblock else arg &&& ~~~oNonblock
      .ok (.returned shown.toInt, answer.2)

/-- `fcntl`. Without hooking it does not look at the optional argument. -/
def fcntl (fd : ℤ) (cmd : FcntlCmd) (arg : Option (BitVec 64)) (w : World κ) :
    Except Fault (Outcome × World κ) :=
  if thread.hookEnable = false then w.original os (.fcntl fd cmd none)
  else
    match cmd with
    | .setFl => w.fcntlSetFl os fd arg
    | .getFl => w.fcntlGetFl os fd
    | .dupFd | .dupFdCloexec | .setFd | .setOwn | .setSig | .setLease | .notify | .setPipeSz =>
      w.fcntlInt os fd cmd arg
    | .getFd | .getOwn | .getSig | .getLease | .getPipeSz => w.original os (.fcntl fd cmd none)
    | .setLk | .setLkw | .getLk | .getOwnEx | .setOwnEx => w.fcntlPointer os fd cmd arg
    | .other _ => w.original os (.fcntl fd cmd none)

/-- `ioctl`, which does not test `t_hookEnable`. -/
def ioctl (fd : ℤ) (request : UInt64) (arg : Pointer) (w : World κ) :
    Except Fault (Outcome × World κ) :=
  if request = fionbio then
    match os.readInt w.kernel arg with
    | none => .error .badPointer
    | some value =>
      match w.context fd with
      | none => w.original os (.ioctl fd request arg)
      | some (number, ctx) =>
        if ctx.isClosed ∨ ctx.isSocket = false then w.original os (.ioctl fd request arg)
        else
          (w.setContext number { ctx with userNonblock := value ≠ 0 }).original os
            (.ioctl fd request arg)
  else w.original os (.ioctl fd request arg)

/-- `getsockopt`. -/
def getsockopt (fd level optname : ℤ) (optval optlen : Pointer) :
    World κ → Except Fault (Outcome × World κ) :=
  original os (.getsockopt fd level optname optval optlen)

/-- `setsockopt`. -/
def setsockopt (fd level optname : ℤ) (optval : Pointer) (optlen : UInt32) (w : World κ) :
    Except Fault (Outcome × World κ) :=
  let call : Call := .setsockopt fd level optname optval optlen
  if thread.hookEnable = false then w.original os call
  else if level = solSocket ∧ (optname = soRcvtimeo ∨ optname = soSndtimeo) then
    match w.context fd with
    | none => w.original os call
    | some (number, ctx) =>
      match os.readTime w.kernel optval with
      | none => .error .badPointer
      | some (sec, usec) =>
        (w.setContext number
          (ctx.setTimeout optname (sec * 1000 + usec / 1000).toUInt64)).original os call
  else w.original os call

/-- The hook that a call goes to. -/
def hook (call : Call) (w : World κ) : Except Fault (Outcome × World κ) :=
  match call with
  | .sleep seconds => w.sleep os thread seconds
  | .usleep usec => w.usleep os thread usec
  | .nanosleep req rem => w.nanosleep os thread req rem
  | .socket domain type protocol => w.socket os thread domain type protocol
  | .connect fd addr addrlen => w.connect os thread fd addr addrlen
  | .accept fd addr addrlen => w.accept os thread fd addr addrlen
  | .read fd buf count => w.read os thread fd buf count
  | .readv fd iov iovcnt => w.readv os thread fd iov iovcnt
  | .recv fd buf len flags => w.recv os thread fd buf len flags
  | .recvfrom fd buf len flags srcAddr addrlen =>
    w.recvfrom os thread fd buf len flags srcAddr addrlen
  | .recvmsg fd msg flags => w.recvmsg os thread fd msg flags
  | .write fd buf count => w.write os thread fd buf count
  | .writev fd iov iovcnt => w.writev os thread fd iov iovcnt
  | .send fd buf len flags => w.send os thread fd buf len flags
  | .sendto fd buf len flags destAddr addrlen =>
    w.sendto os thread fd buf len flags destAddr addrlen
  | .sendmsg fd msg flags => w.sendmsg os thread fd msg flags
  | .close fd => w.close os thread fd
  | .fcntl fd cmd arg => w.fcntl os thread fd cmd arg
  | .ioctl fd request arg => w.ioctl os fd request arg
  | .getsockopt fd level optname optval optlen => w.getsockopt os fd level optname optval optlen
  | .setsockopt fd level optname optval optlen =>
    w.setsockopt os thread fd level optname optval optlen

end World

end Cczoe.Hook
