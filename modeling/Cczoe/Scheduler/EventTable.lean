import Mathlib.Data.UInt
import Mathlib.Algebra.BigOperators.Group.List.Basic

/-!
# The event table of `iomanager.cpp`

`IOManager` keeps an `FdContext` for every descriptor: which of READ and WRITE it waits for, and for
each what to hand to which scheduler. `addEvent`, `delEvent`, `cancelEvent`, `cancelAll` and the
loop body of `idle` look a context up and then work on it under its mutex; each is one action here.
The part under the mutex is a function on the context, the kernel and `m_pendingEventCount`.

The kernel is a parameter: `ctl` decides whether an `epoll_ctl` call succeeds. An action that
returns tells what it did in an `Outcome`: its return value, the events registered when it took the
mutex, its `epoll_ctl` calls and its calls of `triggerEvent`. An action that does not return stops
with a `Fault`: a failed `CCZOE_ASSERT`, an index behind the end of `m_fdContexts`, or a task handed
to a null scheduler. (`schedule` called through a null pointer with neither a callback nor a fiber
touches no member, so that call goes on.)

Schedulers, fibers and callbacks are numbered.
-/

set_option autoImplicit false
set_option relaxedAutoImplicit false

namespace Cczoe.Scheduler

/-- A descriptor, a non-negative `int`. -/
abbrev Fd := Fin (2 ^ 31)

/-- Numerals are descriptors. -/
instance Fd.neZero : NeZero (2 ^ 31) := ⟨by decide⟩

/-- `IOManager::Event`. -/
inductive Event
  | none
  | read
  | write
  deriving DecidableEq, Repr

/-- A set of READ and WRITE, the value of a mask. -/
structure Events where
  read : Bool
  write : Bool
  deriving DecidableEq, Repr

namespace Events

def empty : Events := ⟨false, false⟩

/-- `events & event` is not zero. -/
def has (events : Events) : Event → Bool
  | .none => false
  | .read => events.read
  | .write => events.write

/-- `events | event`. -/
def insert (events : Events) : Event → Events
  | .none => events
  | .read => { events with read := true }
  | .write => { events with write := true }

/-- `events & ~event`. -/
def remove (events : Events) : Event → Events
  | .none => events
  | .read => { events with read := false }
  | .write => { events with write := false }

/-- `events & other`. -/
def inter (events other : Events) : Events :=
  ⟨events.read && other.read, events.write && other.write⟩

/-- `events & ~other`. -/
def diff (events other : Events) : Events :=
  ⟨events.read && !other.read, events.write && !other.write⟩

/-- The number of bits set. -/
def count (events : Events) : ℕ := events.read.toNat + events.write.toNat

end Events

/-- A task of a scheduler. -/
inductive Task
  | callback (cb : ℕ)
  | fiber (fiber : ℕ)
  deriving DecidableEq, Repr

/-- `FdContext::EventContext`. -/
structure EventContext where
  scheduler : Option ℕ := none
  fiber : Option ℕ := none
  cb : Option ℕ := none
  deriving DecidableEq, Repr

/-- What `triggerEvent` hands over: the callback when there is one, else the fiber. -/
def EventContext.task (eventCtx : EventContext) : Option Task :=
  match eventCtx.cb with
  | some cb => some (.callback cb)
  | none => eventCtx.fiber.map .fiber

/-- `FdContext`, apart from its descriptor, which is its index in the table, and its mutex. -/
structure FdContext where
  events : Events := Events.empty
  read : EventContext := {}
  write : EventContext := {}
  deriving DecidableEq, Repr

/-- What an action stops with when it does not return. -/
inductive Fault
  | assertion (text : String)
  | outOfRange
  | nullScheduler
  deriving DecidableEq, Repr

/-- The operations of `epoll_ctl`. -/
inductive CtlOp
  | add
  | mod
  | del
  deriving DecidableEq, Repr

/-- A call of `epoll_ctl` and whether it succeeded. -/
structure CtlCall where
  op : CtlOp
  fd : Fd
  events : Events
  ok : Bool
  deriving DecidableEq, Repr

/-- A call of `triggerEvent`: the events of the context when it is called, and what is handed to
which scheduler. -/
structure Trigger where
  event : Event
  eventsAtCall : Events
  scheduler : Option ℕ
  task : Option Task
  deriving DecidableEq, Repr

/-- What an action that returns has done. -/
structure Outcome where
  ret : ℕ
  lockedEvents : Events := Events.empty
  ctls : List CtlCall := []
  triggers : List Trigger := []
  deriving DecidableEq, Repr

namespace FdContext

/-- `new FdContext`. -/
def fresh : FdContext := {}

/-- `getEventContext`. -/
def getEventContext (ctx : FdContext) : Event → Except Fault EventContext
  | .none => .error (.assertion "FdContext::getContext returns a NONE event")
  | .read => .ok ctx.read
  | .write => .ok ctx.write

/-- The context with one of its event contexts replaced. -/
def setEventContext (ctx : FdContext) (event : Event) (eventCtx : EventContext) : FdContext :=
  match event with
  | .none => ctx
  | .read => { ctx with read := eventCtx }
  | .write => { ctx with write := eventCtx }

/-- `triggerEvent`. The fiber and the callback stay in the event context. -/
def triggerEvent (event : Event) (ctx : FdContext) : Except Fault (Trigger × FdContext) :=
  let cleared := { ctx with events := ctx.events.remove event }
  match cleared.getEventContext event with
  | .error fault => .error fault
  | .ok eventCtx =>
    if eventCtx.scheduler = none ∧ eventCtx.task ≠ none then .error .nullScheduler
    else
      .ok (⟨event, ctx.events, eventCtx.scheduler, eventCtx.task⟩,
        cleared.setEventContext event { eventCtx with scheduler := none })

end FdContext

/-! ### Under the mutex of a context -/

/-- What an action works on while it holds the mutex of a context. -/
structure Locked (κ : Type) where
  ctx : FdContext
  kernel : κ
  pending : UInt64

/-- The thread that calls `addEvent`: its scheduler, and its fiber with whether that is RUNNING. -/
structure Caller where
  scheduler : Option ℕ
  fiber : ℕ
  running : Bool
  deriving DecidableEq, Repr

/-- The mask `epoll_wait` reports, as far as `idle` looks at it. -/
structure EpollMask where
  epollin : Bool
  epollout : Bool
  epollerr : Bool
  epollhup : Bool
  deriving DecidableEq, Repr

/-- The events `idle` collects in `e`. An error or a hang-up counts as both directions. -/
def EpollMask.collected (mask : EpollMask) : Events :=
  if mask.epollerr || mask.epollhup then ⟨true, true⟩ else ⟨mask.epollin, mask.epollout⟩

namespace Locked

variable {κ : Type} (ctl : κ → CtlOp → Fd → Events → Bool × κ)

/-- `triggerEvent(event); m_pendingEventCount--;` when `due` holds. -/
def triggerCounted (due : Bool) (event : Event) (state : List Trigger × FdContext × UInt64) :
    Except Fault (List Trigger × FdContext × UInt64) :=
  if due then
    match state.2.1.triggerEvent event with
    | .error fault => .error fault
    | .ok (trigger, ctx) => .ok (state.1 ++ [trigger], ctx, state.2.2 - 1)
  else .ok state

/-- `addEvent` under the mutex. -/
def addEvent (fd : Fd) (event : Event) (caller : Caller) (cb : Option ℕ) (s : Locked κ) :
    Except Fault (Outcome × Locked κ) :=
  if s.ctx.events.has event then .error (.assertion "!(fdCtx->events & event)")
  else
    let op := if s.ctx.events = Events.empty then CtlOp.add else CtlOp.mod
    let (ok, kernel) := ctl s.kernel op fd (s.ctx.events.insert event)
    let outcome : Outcome :=
      { ret := if ok then 0 else 1
        lockedEvents := s.ctx.events
        ctls := [⟨op, fd, s.ctx.events.insert event, ok⟩] }
    if ok then
      match s.ctx.getEventContext event with
      | .error fault => .error fault
      | .ok eventCtx =>
        let ctx := { s.ctx with events := s.ctx.events.insert event }
        match cb with
        | some cb =>
          .ok (outcome, ⟨ctx.setEventContext event
            { eventCtx with scheduler := caller.scheduler, cb := some cb }, kernel, s.pending + 1⟩)
        | none =>
          if caller.running then
            .ok (outcome, ⟨ctx.setEventContext event
              { eventCtx with scheduler := caller.scheduler, fiber := some caller.fiber },
              kernel, s.pending + 1⟩)
          else .error (.assertion "eventCtx.fiber->getState() == fiber::Fiber::RUNNING")
    else .ok (outcome, { s with kernel := kernel })

/-- The common front of `delEvent` and `cancelEvent` under the mutex: nothing to do when the event
is not registered, else take it out of the kernel. -/
def unregister (fd : Fd) (event : Event) (s : Locked κ) : Outcome × κ :=
  if s.ctx.events.has event then
    let newEvent := s.ctx.events.remove event
    let op := if newEvent = Events.empty then CtlOp.del else CtlOp.mod
    let (ok, kernel) := ctl s.kernel op fd newEvent
    ({ ret := if ok then 0 else 1
       lockedEvents := s.ctx.events
       ctls := [⟨op, fd, newEvent, ok⟩] }, kernel)
  else ({ ret := 1, lockedEvents := s.ctx.events }, s.kernel)

/-- `delEvent` under the mutex. -/
def delEvent (fd : Fd) (event : Event) (s : Locked κ) : Except Fault (Outcome × Locked κ) :=
  let (outcome, kernel) := s.unregister ctl fd event
  if outcome.ret = 0 then
    -- `resetContext`
    .ok (outcome, ⟨{ s.ctx with events := s.ctx.events.remove event }.setEventContext event {},
      kernel, s.pending - 1⟩)
  else .ok (outcome, { s with kernel := kernel })

/-- `cancelEvent` under the mutex. The bit is cleared before `triggerEvent` is called. -/
def cancelEvent (fd : Fd) (event : Event) (s : Locked κ) : Except Fault (Outcome × Locked κ) :=
  let (outcome, kernel) := s.unregister ctl fd event
  if outcome.ret = 0 then
    match { s.ctx with events := s.ctx.events.remove event }.triggerEvent event with
    | .error fault => .error fault
    | .ok (trigger, ctx) =>
      .ok ({ outcome with triggers := [trigger] }, ⟨ctx, kernel, s.pending - 1⟩)
  else .ok (outcome, { s with kernel := kernel })

/-- `cancelAll` under the mutex. The second test looks at the events that the first trigger left. -/
def cancelAll (fd : Fd) (s : Locked κ) : Except Fault (Outcome × Locked κ) :=
  if s.ctx.events = Events.empty then .ok ({ ret := 1, lockedEvents := s.ctx.events }, s)
  else
    let (ok, kernel) := ctl s.kernel .del fd Events.empty
    let outcome : Outcome :=
      { ret := if ok then 0 else 1
        lockedEvents := s.ctx.events
        ctls := [⟨.del, fd, Events.empty, ok⟩] }
    if ok then do
      let first ← triggerCounted s.ctx.events.read .read ([], s.ctx, s.pending)
      let second ← triggerCounted first.2.1.events.write .write first
      if second.2.1.events = Events.empty then
        .ok ({ outcome with triggers := second.1 }, ⟨second.2.1, kernel, second.2.2⟩)
      else .error (.assertion "fdCtx->events == 0")
    else .ok (outcome, { s with kernel := kernel })

/-- The body of the loop of `idle` for a reported context. A failed `epoll_ctl` is only logged. -/
def report (fd : Fd) (mask : EpollMask) (s : Locked κ) : Except Fault (Outcome × Locked κ) :=
  let e := mask.collected
  if s.ctx.events.inter e = Events.empty then .ok ({ ret := 0, lockedEvents := s.ctx.events }, s)
  else do
    let leftEvents := s.ctx.events.diff e
    let op := if leftEvents = Events.empty then CtlOp.del else CtlOp.mod
    let (ok, kernel) := ctl s.kernel op fd leftEvents
    let first ← triggerCounted e.read .read ([], s.ctx, s.pending)
    let second ← triggerCounted e.write .write first
    .ok ({ ret := 0
           lockedEvents := s.ctx.events
           ctls := [⟨op, fd, leftEvents, ok⟩]
           triggers := second.1 }, ⟨second.2.1, kernel, second.2.2⟩)

end Locked

/-! ### The table -/

/-- `IOManager`: the kernel it talks to, `m_fdContexts` and `m_pendingEventCount`. -/
structure IOManager (κ : Type) where
  kernel : κ
  contexts : List FdContext
  pending : UInt64

/-- `fdContextsResize(size)`: `resize`, and a new context in every empty place. -/
def fdContextsResize {γ : Type} (size : ℕ) (fresh : γ) (contexts : List γ) : List γ :=
  contexts.take size ++ List.replicate (size - contexts.length) fresh

/-- The actions on the table. -/
inductive Action
  | addEvent (fd : Fd) (event : Event) (caller : Caller) (cb : Option ℕ)
  | delEvent (fd : Fd) (event : Event)
  | cancelEvent (fd : Fd) (event : Event)
  | cancelAll (fd : Fd)
  | report (fd : Fd) (mask : EpollMask)
  deriving DecidableEq, Repr

/-- The descriptor an action is about. -/
def Action.fd : Action → Fd
  | addEvent fd _ _ _ | delEvent fd _ | cancelEvent fd _ | cancelAll fd | report fd _ => fd

namespace IOManager

variable {κ : Type} (ctl : κ → CtlOp → Fd → Events → Bool × κ)

/-- Work on the context of `fd` under its mutex, once it is found in `contexts`. -/
def withContext (contexts : List FdContext) (fd : Fd)
    (body : Locked κ → Except Fault (Outcome × Locked κ)) (io : IOManager κ) :
    Except Fault (Outcome × IOManager κ) :=
  match contexts[fd.val]? with
  | none => .error .outOfRange
  | some ctx =>
    match body ⟨ctx, io.kernel, io.pending⟩ with
    | .error fault => .error fault
    | .ok (outcome, after) =>
      .ok (outcome, ⟨after.kernel, contexts.set fd after.ctx, after.pending⟩)

/-- The contexts after the lookup of `addEvent`, which makes room for a new descriptor:
`fdContextsResize(fd * 1.5)`. -/
def lookup (fd : Fd) (io : IOManager κ) : List FdContext :=
  if fd < io.contexts.length then io.contexts
  else fdContextsResize (fd * 3 / 2) FdContext.fresh io.contexts

/-- `addEvent(fd, event, cb)`. -/
def addEvent (fd : Fd) (event : Event) (caller : Caller) (cb : Option ℕ) (io : IOManager κ) :
    Except Fault (Outcome × IOManager κ) :=
  io.withContext (io.lookup fd) fd (Locked.addEvent ctl fd event caller cb)

/-- The operations that return `1` for a descriptor that has no context. -/
def ifKnown (fd : Fd) (body : Locked κ → Except Fault (Outcome × Locked κ)) (io : IOManager κ) :
    Except Fault (Outcome × IOManager κ) :=
  if io.contexts.length ≤ fd then .ok ({ ret := 1 }, io) else io.withContext io.contexts fd body

/-- `delEvent(fd, event)`. -/
def delEvent (fd : Fd) (event : Event) : IOManager κ → Except Fault (Outcome × IOManager κ) :=
  ifKnown fd (Locked.delEvent ctl fd event)

/-- `cancelEvent(fd, event)`. -/
def cancelEvent (fd : Fd) (event : Event) : IOManager κ → Except Fault (Outcome × IOManager κ) :=
  ifKnown fd (Locked.cancelEvent ctl fd event)

/-- `cancelAll(fd)`. -/
def cancelAll (fd : Fd) : IOManager κ → Except Fault (Outcome × IOManager κ) :=
  ifKnown fd (Locked.cancelAll ctl fd)

/-- A report of `epoll_wait` for the context of `fd`, worked off by `idle`. The kernel only names
contexts it was given, so a report for a descriptor without a context is none. -/
def report (fd : Fd) (mask : EpollMask) : IOManager κ → Except Fault (Outcome × IOManager κ) :=
  ifKnown fd (Locked.report ctl fd mask)

/-- One action. -/
def step (action : Action) (io : IOManager κ) : Except Fault (Outcome × IOManager κ) :=
  match action with
  | .addEvent fd event caller cb => io.addEvent ctl fd event caller cb
  | .delEvent fd event => io.delEvent ctl fd event
  | .cancelEvent fd event => io.cancelEvent ctl fd event
  | .cancelAll fd => io.cancelAll ctl fd
  | .report fd mask => io.report ctl fd mask

/-- The context of a descriptor, an unused one when there is none yet. -/
def context (io : IOManager κ) (fd : Fd) : FdContext := io.contexts[fd.val]?.getD FdContext.fresh

/-- The READ and WRITE bits set over all contexts. -/
def registered (io : IOManager κ) : ℕ := (io.contexts.map fun ctx ↦ ctx.events.count).sum

/-- An `IOManager` before the first action, over a kernel in a given state. -/
def init (kernel : κ) : IOManager κ := ⟨kernel, [], 0⟩

end IOManager

/-- A kernel that accepts every `epoll_ctl` call. -/
def willingCtl : Unit → CtlOp → Fd → Events → Bool × Unit := fun _ _ _ _ ↦ (true, ())

end Cczoe.Scheduler
