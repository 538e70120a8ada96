import Mathlib.Logic.Function.Basic
import Mathlib.Data.Int.Notation
import Mathlib.Data.List.Basic

/-!
# The descriptor table of `fdmanager.cpp`

The hooks of `hook.cpp` keep an `FdCtx` for every socket they know, in the vector `m_data` of the
`FdManager`. Making an `FdCtx` asks the kernel about the descriptor and sets `O_NONBLOCK` on a
socket, through the original `fcntl`. The original functions are outside of the repository: `Os` is
what they do to a kernel state, and a `World` keeps the list of the calls made to them.

`FdManager` is meant to be a partial map from descriptors to contexts, `FdMap` here. `get` with
`autoCreate` reads `m_data[fd]` before it makes sure that there is such an entry, so that holds as
long as no `get` creates past the end: `fdManager_refines_map_iff`.
-/

set_option autoImplicit false
set_option relaxedAutoImplicit false

namespace Cczoe.Hook

/-- A pointer argument. -/
abbrev Pointer := UInt64

/-- The commands that the `fcntl` hook knows. -/
inductive FcntlCmd
  | setFl
  | getFl
  | dupFd
  | dupFdCloexec
  | setFd
  | setOwn
  | setSig
  | setLease
  | notify
  | setPipeSz
  | getFd
  | getOwn
  | getSig
  | getLease
  | getPipeSz
  | setLk
  | setLkw
  | getLk
  | getOwnEx
  | setOwnEx
  | other (cmd : ℤ)
  deriving DecidableEq, Repr

/-- A call of one of the hooked functions. The optional argument of `fcntl` is there when the caller
passed one; `ioctl` always takes its argument, as the original does. -/
inductive Call
  | sleep (seconds : UInt32)
  | usleep (usec : UInt32)
  | nanosleep (req rem : Pointer)
  | socket (domain type protocol : ℤ)
  | connect (fd : ℤ) (addr : Pointer) (addrlen : UInt32)
  | accept (fd : ℤ) (addr addrlen : Pointer)
  | read (fd : ℤ) (buf : Pointer) (count : UInt64)
  | readv (fd : ℤ) (iov : Pointer) (iovcnt : ℤ)
  | recv (fd : ℤ) (buf : Pointer) (len : UInt64) (flags : ℤ)
  | recvfrom (fd : ℤ) (buf : Pointer) (len : UInt64) (flags : ℤ) (srcAddr addrlen : Pointer)
  | recvmsg (fd : ℤ) (msg : Pointer) (flags : ℤ)
  | write (fd : ℤ) (buf : Pointer) (count : UInt64)
  | writev (fd : ℤ) (iov : Pointer) (iovcnt : ℤ)
  | send (fd : ℤ) (buf : Pointer) (len : UInt64) (flags : ℤ)
  | sendto (fd : ℤ) (buf : Pointer) (len : UInt64) (flags : ℤ) (destAddr : Pointer)
      (addrlen : UInt32)
  | sendmsg (fd : ℤ) (msg : Pointer) (flags : ℤ)
  | close (fd : ℤ)
  | fcntl (fd : ℤ) (cmd : FcntlCmd) (arg : Option (BitVec 64))
  | ioctl (fd : ℤ) (request : UInt64) (arg : Pointer)
  | getsockopt (fd level optname : ℤ) (optval optlen : Pointer)
  | setsockopt (fd level optname : ℤ) (optval : Pointer) (optlen : UInt32)
  deriving DecidableEq, Repr

/-- What a call returns, with the `errno` it leaves. -/
structure Reply where
  value : ℤ
  errno : ℤ
  deriving DecidableEq, Repr

/-- The functions that the hooks call and that are not hooks: the original functions, `fstat` with
whether the descriptor is a socket, and reads of the memory behind a pointer. -/
structure Os (κ : Type) where
  call : Call → κ → Reply × κ
  fstat : κ → ℤ → Option Bool
  readInt : κ → Pointer → Option (BitVec 32)
  readTime : κ → Pointer → Option (Int64 × Int64)

/-- `FdCtx`. -/
structure FdCtx where
  fd : ℤ
  isInit : Bool := false
  isSocket : Bool := false
  sysNonblock : Bool := false
  userNonblock : Bool := false
  isClosed : Bool := false
  recvTimeout : UInt64 := 0xffffffffffffffff
  sendTimeout : UInt64 := 0xffffffffffffffff
  deriving DecidableEq, Repr

/-- What a thread in a hook sees: the kernel, `errno`, the calls of original functions made so far,
the descriptors for which `cancelAll` was called, and the `FdManager`, with the contexts made so far
and `m_data`, which refers to them by their number. -/
@[ext] structure World (κ : Type) where
  kernel : κ
  errno : ℤ
  calls : List Call
  cancelled : List ℤ
  contexts : List FdCtx
  data : List (Option ℕ)

/-- How a hook can go wrong. -/
inductive Fault
  /-- `m_data[fd]` past the end. -/
  | outOfRange
  /-- A pointer argument that cannot be read. -/
  | badPointer
  /-- `va_arg` for an argument that was not passed. -/
  | missingArgument
  deriving DecidableEq, Repr

/-- The bit of `O_NONBLOCK` in the file status flags. -/
def oNonblock : BitVec 32 := 0x800

namespace World

variable {κ : Type} (os : Os κ)

/-- A call of an original function. -/
def invoke (call : Call) (w : World κ) : ℤ × World κ :=
  let answer := os.call call w.kernel
  (answer.1.value,
    { w with kernel := answer.2, errno := answer.1.errno, calls := w.calls ++ [call] })

/-- `FdCtx::FdCtx`. -/
def newFdCtx (fd : ℤ) (w : World κ) : FdCtx × World κ :=
  match os.fstat w.kernel fd with
  | none => ({ fd := fd }, w)
  | some false => ({ fd := fd, isInit := true }, w)
  | some true =>
    let asked := w.invoke os (.fcntl fd .getFl (some 0))
    let flags := BitVec.ofInt 32 asked.1
    let changed :=
      if flags &&& oNonblock = 0 then
        (asked.2.invoke os (.fcntl fd .setFl (some ((flags ||| oNonblock).setWidth 64)))).2
      else asked.2
    ({ fd := fd, isInit := true, isSocket := true, sysNonblock := true }, changed)

/-- `m_data.resize`. -/
def resize (data : List (Option ℕ)) (size : ℕ) : List (Option ℕ) :=
  (data ++ List.replicate size none).take size

/-- `FdManager::set`, with the number of the new context. `fd * 1.5` is exact for an `int`. -/
def set (fd : ℕ) (w : World κ) : Except Fault (ℕ × World κ) :=
  let made := w.newFdCtx os fd
  let data := if fd ≥ w.data.length then resize w.data (fd + fd / 2) else w.data
  let number := w.contexts.length
  if fd < data.length then
    .ok (number, { made.2 with
      contexts := w.contexts ++ [made.1], data := data.set fd (some number) })
  else .error .outOfRange

/-- `FdManager::get`. -/
def get (fd : ℕ) (autoCreate : Bool) (w : World κ) : Except Fault (Option ℕ × World κ) :=
  if fd ≥ w.data.length ∧ autoCreate = false then .ok (none, w)
  else
    match w.data[fd]? with
    | none => .error .outOfRange
    | some entry =>
      if entry.isSome ∨ autoCreate = false then .ok (entry, w)
      else (w.set os fd).map fun made ↦ (some made.1, made.2)

/-- `FdManager::del`. -/
def del (fd : ℕ) (w : World κ) : World κ :=
  if fd < w.data.length then { w with data := w.data.set fd none } else w

/-- The world when the `FdManager` has just been made. -/
def init (kernel : κ) : World κ := ⟨kernel, 0, [], [], [], List.replicate 64 none⟩

end World

/-- The operations of an `FdManager`. -/
inductive FdOp
  | set (fd : ℕ)
  | get (fd : ℕ) (autoCreate : Bool)
  | del (fd : ℕ)
  deriving DecidableEq, Repr

/-- What an `FdManager` is for: a partial map from descriptors to contexts, which are numbered in
the order in which they are made. -/
structure FdMap where
  entries : ℕ → Option ℕ
  made : ℕ

namespace FdMap

/-- No descriptor has a context. -/
def empty : FdMap := ⟨fun _ ↦ none, 0⟩

/-- A new context is made for a descriptor. -/
def create (fd : ℕ) (m : FdMap) : FdMap :=
  ⟨Function.update m.entries fd (some m.made), m.made + 1⟩

/-- One operation on the map. -/
def step (op : FdOp) (m : FdMap) : Option ℕ × FdMap :=
  match op with
  | .set fd => (some m.made, m.create fd)
  | .get fd false => (m.entries fd, m)
  | .get fd true =>
    match m.entries fd with
    | some number => (some number, m)
    | none => (some m.made, m.create fd)
  | .del fd => (none, { m with entries := Function.update m.entries fd none })

/-- A sequence of operations on the map. -/
def execute : List FdOp → FdMap → List (Option ℕ) × FdMap
  | [], m => ([], m)
  | op :: rest, m =>
    let after := execute rest (m.step op).2
    ((m.step op).1 :: after.1, after.2)

end FdMap

namespace World

variable {κ : Type} (os : Os κ)

/-- One operation on the `FdManager`. -/
def step (op : FdOp) (w : World κ) : Except Fault (Option ℕ × World κ) :=
  match op with
  | .set fd => (w.set os fd).map fun made ↦ (some made.1, made.2)
  | .get fd autoCreate => w.get os fd autoCreate
  | .del fd => .ok (none, w.del fd)

/-- A sequence of operations on the `FdManager`. -/
def execute : List FdOp → World κ → Except Fault (List (Option ℕ) × World κ)
  | [], w => .ok ([], w)
  | op :: rest, w =>
    match w.step os op with
    | .error fault => .error fault
    | .ok (output, next) =>
      (execute rest next).map fun after ↦ (output :: after.1, after.2)

/-- The table holds the entries of the map. -/
structure Represents (w : World κ) (m : FdMap) : Prop where
  entries : ∀ fd, m.entries fd = w.data[fd]?.join
  made : m.made = w.contexts.length

/-- The operations return what the map returns, and end with a table that holds the map. -/
def Refines (w : World κ) (m : FdMap) (ops : List FdOp) : Prop :=
  ∃ final, w.execute os ops = .ok ((m.execute ops).1, final) ∧ final.Represents (m.execute ops).2

end World

/-- The size of `m_data` after a `set`. -/
def grown (size fd : ℕ) : ℕ := if fd ≥ size then fd + fd / 2 else size

namespace FdOp

/-- A `get` with `autoCreate` is for a descriptor below the size of `m_data`. -/
def InRange (size : ℕ) : FdOp → Prop
  | .get fd autoCreate => autoCreate = true → fd < size
  | _ => True

/-- The size of `m_data` after an operation that is in range. -/
def sizeAfter (size : ℕ) : FdOp → ℕ
  | .set fd => grown size fd
  | _ => size

end FdOp

/-- Every operation of a sequence is in range when it is made. -/
def InRange : ℕ → List FdOp → Prop
  | _, [] => True
  | size, op :: rest => op.InRange size ∧ InRange (op.sizeAfter size) rest

namespace World

variable {κ : Type} {os : Os κ} {w : World κ} {m : FdMap}

theorem length_resize (data : List (Option ℕ)) (size : ℕ) : (resize data size).length = size := by
  rw [resize, List.length_take, List.length_append, List.length_replicate]
  exact Nat.min_eq_left (Nat.le_add_left _ _)

/-- Growing the table adds no entry. -/
theorem join_resize {data : List (Option ℕ)} {size : ℕ} (hsize : data.length ≤ size) (fd : ℕ) :
    (resize data size)[fd]?.join = data[fd]?.join := by
  rw [resize, List.getElem?_take, List.getElem?_append]
  by_cases hold : fd < data.length
  · rw [if_pos (Nat.lt_of_lt_of_le hold hsize), if_pos hold]
  · rw [if_neg hold, List.getElem?_eq_none (Nat.not_lt.mp hold), List.getElem?_replicate]
    split_ifs <;> rfl

/-- Assumes: an entry that exists is assigned. -/
theorem join_set {data : List (Option ℕ)} {fd : ℕ} (hfd : fd < data.length) (entry : Option ℕ)
    (other : ℕ) : (data.set fd entry)[other]?.join =
      Function.update (fun fd ↦ data[fd]?.join) fd entry other := by
  by_cases hsame : other = fd
  · rw [hsame, List.getElem?_set_self hfd, Function.update_self]
    rfl
  · rw [List.getElem?_set_ne (fun heq ↦ hsame heq.symm), Function.update_of_ne hsame]

/-- Assumes: the table has at least two entries. `set` returns a new context, and the map has it. -/
theorem Represents.set (os : Os κ) (hw : w.Represents m) (hsize : 2 ≤ w.data.length) (fd : ℕ) :
    ∃ next, w.set os fd = .ok (m.made, next) ∧ next.Represents (m.create fd) ∧
      next.data.length = grown w.data.length fd := by
  obtain ⟨data, hdata⟩ : ∃ data, data =
      if fd ≥ w.data.length then resize w.data (fd + fd / 2) else w.data := ⟨_, rfl⟩
  have hlength : data.length = grown w.data.length fd := by
    rw [hdata, grown]
    split_ifs
    · exact length_resize _ _
    · rfl
  have hfd : fd < data.length := by
    rw [hlength, grown]
    split_ifs <;> omega
  have hjoin : (fun fd ↦ data[fd]?.join) = m.entries := by
    funext other
    rw [hw.entries other, hdata]
    split_ifs with hpast
    · exact join_resize (Nat.le_trans hpast (Nat.le_add_right _ _)) other
    · rfl
  refine ⟨{ (w.newFdCtx os fd).2 with
    contexts := w.contexts ++ [(w.newFdCtx os fd).1], data := data.set fd (some m.made) },
    ?_, ?_, ?_⟩
  · rw [World.set, ← hdata, if_pos hfd, hw.made]
  · refine ⟨?_, ?_⟩
    · intro other
      rw [FdMap.create, join_set hfd, hjoin]
    · rw [FdMap.create, hw.made, List.length_append]
      rfl
  · rw [List.length_set]
    exact hlength

/-- `set` makes one context more. -/
theorem length_contexts_set {fd : ℕ} {made : ℕ × World κ} (hset : w.set os fd = .ok made) :
    made.2.contexts.length = w.contexts.length + 1 := by
  rw [World.set] at hset
  by_cases hfd : fd < (if fd ≥ w.data.length then resize w.data (fd + fd / 2) else w.data).length
  · rw [if_pos hfd] at hset
    cases hset
    exact List.length_append
  · rw [if_neg hfd] at hset
    cases hset

/-- `get(fd)` returns the entry of the table, if there is one, and changes nothing. -/
theorem get_false (w : World κ) (fd : ℕ) : w.get os fd false = .ok (w.data[fd]?.join, w) := by
  rw [World.get]
  by_cases hpast : fd ≥ w.data.length
  · rw [if_pos ⟨hpast, rfl⟩, List.getElem?_eq_none hpast]
    rfl
  · rw [if_neg fun hboth ↦ hpast hboth.1, List.getElem?_eq_getElem (Nat.not_le.mp hpast)]
    simp only [or_true, if_true]
    rfl

/-- `get(fd, true)` returns an entry that is there and changes nothing. -/
theorem get_true_of_some {fd number : ℕ} (hentry : w.data[fd]? = some (some number)) :
    w.get os fd true = .ok (some number, w) := by
  have hnot : ¬ (fd ≥ w.data.length ∧ true = false) := fun hboth ↦
    absurd hboth.2 Bool.false_ne_true.symm
  rw [World.get, if_neg hnot, hentry]
  simp only [Option.isSome_some, true_or, if_true]

/-- `get(fd, true)` makes a context for an entry that is empty. -/
theorem get_true_of_none {fd : ℕ} (hentry : w.data[fd]? = some none) :
    w.get os fd true = (w.set os fd).map fun made ↦ (some made.1, made.2) := by
  have hnot : ¬ (fd ≥ w.data.length ∧ true = false) := fun hboth ↦
    absurd hboth.2 Bool.false_ne_true.symm
  rw [World.get, if_neg hnot, hentry]
  simp only [Option.isSome_none, Bool.false_eq_true, Bool.true_eq_false, or_self, if_false]

/-- `get(fd, true)` reads past the end of the table for a descriptor that has no entry. -/
theorem get_true_past_end {fd : ℕ} (hentry : w.data[fd]? = none) :
    w.get os fd true = .error .outOfRange := by
  have hnot : ¬ (fd ≥ w.data.length ∧ true = false) := fun hboth ↦
    absurd hboth.2 Bool.false_ne_true.symm
  rw [World.get, if_neg hnot, hentry]

/-- Assumes: a descriptor within the table, or no `autoCreate`. `get` returns what the map does. -/
theorem Represents.get (os : Os κ) (hw : w.Represents m) (hsize : 2 ≤ w.data.length) {fd : ℕ}
    {autoCreate : Bool} (hrange : autoCreate = true → fd < w.data.length) :
    ∃ next, w.get os fd autoCreate = .ok ((m.step (.get fd autoCreate)).1, next) ∧
      next.Represents (m.step (.get fd autoCreate)).2 ∧
      next.data.length = w.data.length := by
  have hentry := hw.entries fd
  cases autoCreate with
  | false =>
    refine ⟨w, ?_, hw, rfl⟩
    rw [get_false, FdMap.step, hentry]
  | true =>
    have hfd : fd < w.data.length := hrange rfl
    rw [List.getElem?_eq_getElem hfd, Option.join_some] at hentry
    rw [FdMap.step]
    cases hpresent : w.data[fd] with
    | some number =>
      rw [hpresent] at hentry
      refine ⟨w, ?_, ?_, rfl⟩
      · simp only [hentry]
        exact get_true_of_some (by rw [List.getElem?_eq_getElem hfd, hpresent])
      · simp only [hentry]
        exact hw
    | none =>
      rw [hpresent] at hentry
      obtain ⟨next, hset, hnext, hlength⟩ := hw.set os hsize fd
      refine ⟨next, ?_, ?_, ?_⟩
      · simp only [hentry]
        rw [get_true_of_none (by rw [List.getElem?_eq_getElem hfd, hpresent]), hset]
        rfl
      · simp only [hentry]
        exact hnext
      · rw [hlength, grown, if_neg (Nat.not_le.mpr hfd)]

theorem Represents.del (hw : w.Represents m) (fd : ℕ) :
    (w.del fd).Represents (m.step (.del fd)).2 ∧ (w.del fd).data.length = w.data.length := by
  by_cases hfd : fd < w.data.length
  · rw [World.del, if_pos hfd]
    refine ⟨⟨?_, hw.made⟩, List.length_set⟩
    intro other
    rw [join_set hfd, ← funext hw.entries]
    rfl
  · rw [World.del, if_neg hfd]
    refine ⟨⟨?_, hw.made⟩, rfl⟩
    intro other
    have hnone : m.entries fd = none := by
      rw [hw.entries fd, List.getElem?_eq_none (Nat.not_lt.mp hfd)]
      rfl
    rw [FdMap.step, ← hnone, Function.update_eq_self]
    exact hw.entries other

/-- One operation that is in range returns what the map returns. -/
theorem Represents.step (os : Os κ) (hw : w.Represents m) (hsize : 2 ≤ w.data.length) {op : FdOp}
    (hrange : op.InRange w.data.length) :
    ∃ next, w.step os op = .ok ((m.step op).1, next) ∧ next.Represents (m.step op).2 ∧
      next.data.length = op.sizeAfter w.data.length := by
  cases op with
  | set fd =>
    obtain ⟨next, hset, hnext, hlength⟩ := hw.set os hsize fd
    refine ⟨next, ?_, hnext, hlength⟩
    rw [World.step, hset]
    rfl
  | get fd autoCreate => exact hw.get os hsize hrange
  | del fd => exact ⟨w.del fd, rfl, hw.del fd⟩

/-- An operation that is not in range reads past the end of the table. -/
theorem step_out_of_range {op : FdOp} (hrange : ¬ op.InRange w.data.length) :
    w.step os op = .error .outOfRange := by
  cases op with
  | set fd => exact absurd trivial hrange
  | del fd => exact absurd trivial hrange
  | get fd autoCreate =>
    obtain ⟨rfl, hpast⟩ := Classical.not_imp.mp hrange
    exact get_true_past_end (List.getElem?_eq_none (Nat.not_lt.mp hpast))

/-- The table does not shrink. -/
theorem two_le_sizeAfter {size : ℕ} (hsize : 2 ≤ size) (op : FdOp) : 2 ≤ op.sizeAfter size := by
  cases op with
  | set fd =>
    rw [FdOp.sizeAfter, grown]
    split_ifs <;> omega
  | get fd autoCreate => exact hsize
  | del fd => exact hsize

/-- Assumes: the first operation returns what the map returns. The rest decides. -/
theorem refines_cons_iff {op : FdOp} {rest : List FdOp} {next : World κ}
    (hstep : w.step os op = .ok ((m.step op).1, next)) :
    w.Refines os m (op :: rest) ↔ next.Refines os (m.step op).2 rest := by
  rw [Refines, Refines, World.execute, hstep]
  constructor
  · rintro ⟨final, hexecute, hfinal⟩
    cases hrest : next.execute os rest with
    | error fault =>
      simp only [hrest] at hexecute
      cases hexecute
    | ok after =>
      simp only [hrest] at hexecute
      have hboth := Prod.ext_iff.mp (Except.ok.inj hexecute)
      exact ⟨final, congrArg Except.ok (Prod.ext (List.cons.inj hboth.1).2 hboth.2), hfinal⟩
  · rintro ⟨final, hexecute, hfinal⟩
    refine ⟨final, ?_, hfinal⟩
    simp only [hexecute]
    rfl

/-- Assumes: the table holds the map. A sequence of operations does what it does on the map exactly
when it is in range. -/
theorem Represents.refines_iff (os : Os κ) (ops : List FdOp) (hw : w.Represents m)
    (hsize : 2 ≤ w.data.length) : w.Refines os m ops ↔ InRange w.data.length ops := by
  induction ops generalizing w m with
  | nil => exact iff_of_true ⟨w, rfl, hw⟩ trivial
  | cons op rest ih =>
    by_cases hrange : op.InRange w.data.length
    · obtain ⟨next, hstep, hnext, hlength⟩ := hw.step os hsize hrange
      have hlarge : 2 ≤ next.data.length := hlength ▸ two_le_sizeAfter hsize op
      rw [refines_cons_iff hstep, ih hnext hlarge, hlength, InRange]
      exact (and_iff_right hrange).symm
    · refine iff_of_false ?_ fun hall ↦ hrange hall.1
      rintro ⟨final, hexecute, -⟩
      rw [World.execute, step_out_of_range hrange] at hexecute
      cases hexecute

/-- The table starts empty. -/
theorem represents_init (kernel : κ) : (init kernel).Represents FdMap.empty := by
  refine ⟨?_, rfl⟩
  intro fd
  rw [init, List.getElem?_replicate]
  split_ifs <;> rfl

/-- Whatever the kernel does: a sequence of operations on a new `FdManager` returns what the partial
map returns, without reading past the end of `m_data`, and leaves a table that holds the map,
exactly when every `get` with `autoCreate` is for a descriptor below the size of `m_data` at that
time. -/
theorem fdManager_refines_map_iff (os : Os κ) (kernel : κ) (ops : List FdOp) :
    (init kernel).Refines os FdMap.empty ops ↔ InRange 64 ops := by
  have hiff := (represents_init kernel).refines_iff os ops
  rw [init, List.length_replicate] at hiff
  exact hiff (by decide)

/-- A kernel whose calls all return 0, and which knows no descriptor. -/
def quietOs : Os Unit :=
  ⟨fun _ _ ↦ (⟨0, 0⟩, ()), fun _ _ ↦ none, fun _ _ ↦ none, fun _ _ ↦ none⟩

/-- The 65th descriptor is created by `get` on a new `FdManager`. -/
theorem fdManager_reads_past_end :
    ¬ ∀ (κ : Type) (os : Os κ) (kernel : κ) (ops : List FdOp),
      (init kernel).Refines os FdMap.empty ops := by
  intro hall
  obtain ⟨final, hexecute, -⟩ := hall Unit quietOs () [.get 64 true]
  cases hexecute

end World

end Cczoe.Hook
