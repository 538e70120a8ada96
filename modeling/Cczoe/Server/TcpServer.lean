import Cczoe.Socket.Connecting
import Mathlib.Data.List.ReduceOption

/-!
# `bind` of `TcpServer.cpp`

`TcpServer::bind` makes a socket for each address, binds it and listens on it. A socket that fails
is closed when it goes out of scope, and its entry of the caller's vector `success` becomes false.
The others are appended to `m_socks`.

The vector is not reset: `success.resize(addrs.size(), true)` gives the value true to new entries
only. What an earlier call left false stays false, also where the address is bound and listened on
now (`bindAddresses_eq`). `bindAddresses_right_iff` is the exact condition under which the vector
and the returned value tell what happened in the call. The function for one address passes a new
vector each time, and its value is always right (`bindAddress_eq`).

The functions of the system are the parameter `NetOs`, and `listen` beside it. Log output is left
out.
-/

set_option autoImplicit false
set_option relaxedAutoImplicit false

namespace Cczoe.Sockets

open Cczoe.Foundations (ok_bind)
open Cczoe.Hook (World Thread Pointer Reply)

/-- `SOMAXCONN`. -/
def somaxconn : ℤ := 4096

/-- The functions that a listening socket calls. -/
structure ListenOs (κ : Type) extends NetOs κ where
  listen : ℤ → ℤ → κ → Reply × κ

section Server

variable {κ : Type} (net : ListenOs κ) (locals : Locals net.toOs) (thread : Thread)

/-- `listen`, with the default backlog. -/
def Socket.listen (s : Socket) (w : World κ) : Bool × World κ :=
  if s.sock = -1 then (false, w)
  else
    let reply := net.listen s.sock somaxconn w.kernel
    (reply.1.value == 0, { w with kernel := reply.2, errno := reply.1.errno })

/-- `Socket::CreateTCP`. -/
def Socket.createTCP (addr : Address) : Socket := Socket.new addr.family sockStream 0

/-- `std::vector<bool>::resize(size, value)`. -/
def resize (flags : List Bool) (size : ℕ) (value : Bool) : List Bool :=
  flags.take size ++ List.replicate (size - flags.length) value

/-- `TcpServer`, as far as `bind` changes it. -/
structure TcpServer where
  socks : List Socket

/-- The loop of `bind` over the addresses from number `i` on, each an object at a pointer. -/
def bindLoop : List (Address × Pointer) → ℕ → List Bool → List Socket → World κ →
    Except Stop (List Bool × List Socket × World κ)
  | [], _, success, socks, w => .ok (success, socks, w)
  | (addr, pointer) :: rest, i, success, socks, w => do
    let bound ← (Socket.createTCP addr).bind net.toNetOs locals thread addr pointer w
    if bound.1 = false then
      let closed ← bound.2.1.close net.toNetOs thread bound.2.2
      bindLoop rest (i + 1) (success.set i false) socks closed.2.2
    else
      let listened := bound.2.1.listen net bound.2.2
      if listened.1 = false then
        let closed ← bound.2.1.close net.toNetOs thread listened.2
        bindLoop rest (i + 1) (success.set i false) socks closed.2.2
      else bindLoop rest (i + 1) success (socks ++ [bound.2.1]) listened.2

/-- What `bind` returns and leaves. -/
structure Bound (κ : Type) where
  ret : Bool
  success : List Bool
  server : TcpServer
  world : World κ

/-- `bind(addrs, success)`. -/
def TcpServer.bindAddresses (addrs : List (Address × Pointer)) (success : List Bool)
    (server : TcpServer) (w : World κ) : Except Stop (Bound κ) := do
  let done ← bindLoop net locals thread addrs 0 (resize success addrs.length true) server.socks w
  return ⟨done.1.all id, done.1, ⟨done.2.1⟩, done.2.2⟩

/-- `bind(addr)`. -/
def TcpServer.bindAddress (addr : Address × Pointer) (server : TcpServer) (w : World κ) :
    Except Stop (Bound κ) :=
  server.bindAddresses net locals thread [addr] [] w

/-! ### What happens to the addresses -/

/-- What a call makes of one address: the socket, if it was bound and listens. -/
def serve (addr : Address) (pointer : Pointer) (w : World κ) :
    Except Stop (Option Socket × World κ) := do
  let bound ← (Socket.createTCP addr).bind net.toNetOs locals thread addr pointer w
  if bound.1 = false then
    let closed ← bound.2.1.close net.toNetOs thread bound.2.2
    .ok (none, closed.2.2)
  else
    let listened := bound.2.1.listen net bound.2.2
    if listened.1 = false then
      let closed ← bound.2.1.close net.toNetOs thread listened.2
      .ok (none, closed.2.2)
    else .ok (some bound.2.1, listened.2)

/-- What a call makes of all addresses, one after the other. -/
def serveAll : List (Address × Pointer) → World κ → Except Stop (List (Option Socket) × World κ)
  | [], w => .ok ([], w)
  | (addr, pointer) :: rest, w => do
    let first ← serve net locals thread addr pointer w
    let others ← serveAll rest first.2
    .ok (first.1 :: others.1, others.2)

/-- The vector with entry `i` set to false where the address has failed. -/
def markOne (i : ℕ) (outcome : Option Socket) (success : List Bool) : List Bool :=
  match outcome with
  | none => success.set i false
  | some _ => success

/-- The vector with the entries of failed addresses set to false, from entry `i` on. -/
def mark : ℕ → List (Option Socket) → List Bool → List Bool
  | _, [], success => success
  | i, outcome :: rest, success => mark (i + 1) rest (markOne i outcome success)

/-- One turn of the loop. -/
theorem bindLoop_cons (addr : Address) (pointer : Pointer) (rest : List (Address × Pointer)) (i : ℕ)
    (success : List Bool) (socks : List Socket) (w : World κ) :
    bindLoop net locals thread ((addr, pointer) :: rest) i success socks w =
      serve net locals thread addr pointer w >>= fun served ↦
        bindLoop net locals thread rest (i + 1) (markOne i served.1 success)
          (socks ++ served.1.toList) served.2 := by
  rw [bindLoop, serve]
  cases (Socket.createTCP addr).bind net.toNetOs locals thread addr pointer w with
  | error stop => rfl
  | ok bound =>
    simp only [ok_bind]
    by_cases hbound : bound.1 = false
    · rw [if_pos hbound, if_pos hbound]
      cases bound.2.1.close net.toNetOs thread bound.2.2 with
      | error stop => rfl
      | ok closed => simp only [ok_bind, markOne, Option.toList_none, List.append_nil]
    · rw [if_neg hbound, if_neg hbound]
      by_cases hlistened : (bound.2.1.listen net bound.2.2).1 = false
      · rw [if_pos hlistened, if_pos hlistened]
        cases bound.2.1.close net.toNetOs thread (bound.2.1.listen net bound.2.2).2 with
        | error stop => rfl
        | ok closed => simp only [ok_bind, markOne, Option.toList_none, List.append_nil]
      · rw [if_neg hlistened, if_neg hlistened]
        rfl

/-- The loop marks the failed addresses and appends the sockets of the others. -/
theorem bindLoop_eq (addrs : List (Address × Pointer)) :
    ∀ (i : ℕ) (success : List Bool) (socks : List Socket) (w : World κ),
      bindLoop net locals thread addrs i success socks w =
        serveAll net locals thread addrs w >>= fun served ↦
          .ok (mark i served.1 success, socks ++ served.1.reduceOption, served.2) := by
  induction addrs with
  | nil =>
    intro i success socks w
    rw [bindLoop, serveAll]
    simp only [ok_bind, mark, List.reduceOption_nil, List.append_nil]
  | cons addr rest ih =>
    intro i success socks w
    obtain ⟨addr, pointer⟩ := addr
    rw [bindLoop_cons, serveAll]
    cases serve net locals thread addr pointer w with
    | error stop => rfl
    | ok first =>
      simp only [ok_bind]
      rw [ih]
      cases serveAll net locals thread rest first.2 with
      | error stop => rfl
      | ok others =>
        have hsocks : socks ++ first.1.toList ++ others.1.reduceOption =
            socks ++ (first.1 :: others.1).reduceOption := by
          rw [List.append_assoc]
          cases first.1 with
          | none => rw [Option.toList_none, List.nil_append, List.reduceOption_cons_of_none]
          | some sock => rw [Option.toList_some, List.singleton_append,
              List.reduceOption_cons_of_some]
        simp only [ok_bind]
        rw [hsocks, mark]

/-- Assumes: an entry for every address from number `before.length` on. An entry stays true where it
was true and its address has not failed. -/
theorem mark_append (outcomes : List (Option Socket)) :
    ∀ before flags : List Bool, flags.length = outcomes.length →
      mark before.length outcomes (before ++ flags) =
        before ++ List.zipWith (fun flag outcome ↦ flag && outcome.isSome) flags outcomes := by
  induction outcomes with
  | nil =>
    intro before flags hlength
    rw [List.length_eq_zero_iff.mp hlength, mark]
    rfl
  | cons outcome rest ih =>
    intro before flags hlength
    cases flags with
    | nil => exact absurd hlength.symm (Nat.succ_ne_zero _)
    | cons flag flags =>
      have hone : markOne before.length outcome (before ++ flag :: flags) =
          before ++ [flag && outcome.isSome] ++ flags := by
        cases outcome with
        | none => simp [markOne]
        | some sock => simp [markOne]
      have hnext := ih (before ++ [flag && outcome.isSome]) flags (Nat.succ_inj.mp hlength)
      rw [List.length_append, List.length_singleton] at hnext
      rw [mark, hone, hnext, List.zipWith_cons_cons, List.append_assoc, List.singleton_append]

/-- Each address has an outcome. -/
theorem length_serveAll (addrs : List (Address × Pointer)) :
    ∀ {w after : World κ} {outcomes : List (Option Socket)},
      serveAll net locals thread addrs w = .ok (outcomes, after) →
      outcomes.length = addrs.length := by
  induction addrs with
  | nil =>
    intro w after outcomes hserved
    cases hserved
    rfl
  | cons addr rest ih =>
    intro w after outcomes hserved
    obtain ⟨addr, pointer⟩ := addr
    rw [serveAll] at hserved
    cases hfirst : serve net locals thread addr pointer w with
    | error stop =>
      rw [hfirst] at hserved
      cases hserved
    | ok first =>
      rw [hfirst] at hserved
      simp only [ok_bind] at hserved
      cases hothers : serveAll net locals thread rest first.2 with
      | error stop =>
        rw [hothers] at hserved
        cases hserved
      | ok others =>
        rw [hothers] at hserved
        cases hserved
        rw [List.length_cons, List.length_cons, ih hothers]

/-! ### The vector of the caller -/

theorem length_resize (flags : List Bool) (size : ℕ) (value : Bool) :
    (resize flags size value).length = size := by
  rw [resize, List.length_append, List.length_take, List.length_replicate]
  omega

/-- Resizing keeps the old entries. -/
theorem getElem?_resize (flags : List Bool) {size i : ℕ} (value : Bool) (hi : i < size) :
    (resize flags size value)[i]? = some (flags[i]?.getD value) := by
  rw [resize]
  by_cases hold : i < flags.length
  · rw [List.getElem?_append_left (by rw [List.length_take]; omega),
      List.getElem?_take_of_lt hi, List.getElem?_eq_getElem hold]
    rfl
  · rw [List.getElem?_append_right (by rw [List.length_take]; omega), List.length_take,
      List.getElem?_replicate, if_pos (by omega), List.getElem?_eq_none (by omega)]
    rfl

/-- What `bind` returns and leaves, where all socket operations return: an old false entry stays
false whatever happens to its address. -/
theorem bindAddresses_eq {addrs : List (Address × Pointer)} {w after : World κ}
    {outcomes : List (Option Socket)}
    (hserved : serveAll net locals thread addrs w = .ok (outcomes, after)) (success : List Bool)
    (server : TcpServer) :
    server.bindAddresses net locals thread addrs success w =
      .ok {
        ret := (List.zipWith (fun flag outcome ↦ flag && outcome.isSome)
          (resize success addrs.length true) outcomes).all id
        success := List.zipWith (fun flag outcome ↦ flag && outcome.isSome)
          (resize success addrs.length true) outcomes
        server := ⟨server.socks ++ outcomes.reduceOption⟩
        world := after } := by
  have hlength : (resize success addrs.length true).length = outcomes.length := by
    rw [length_resize, length_serveAll net locals thread addrs hserved]
  have hmark := mark_append outcomes [] (resize success addrs.length true) hlength
  rw [List.length_nil, List.nil_append, List.nil_append] at hmark
  rw [TcpServer.bindAddresses, bindLoop_eq, hserved]
  simp only [ok_bind, hmark]
  rfl

/-- The `bind` of one address, where its socket operations return, tells whether the address was
bound and listened on. -/
theorem bindAddress_eq {addr : Address × Pointer} {w after : World κ} {outcome : Option Socket}
    (hserve : serve net locals thread addr.1 addr.2 w = .ok (outcome, after))
    (server : TcpServer) :
    server.bindAddress net locals thread addr w =
      .ok ⟨outcome.isSome, [outcome.isSome], ⟨server.socks ++ outcome.toList⟩, after⟩ := by
  have hserved : serveAll net locals thread [addr] w = .ok ([outcome], after) := by
    rw [serveAll, hserve]
    rfl
  have hsocks : [outcome].reduceOption = outcome.toList := by
    cases outcome with
    | none => rfl
    | some sock => rfl
  rw [TcpServer.bindAddress, bindAddresses_eq net locals thread hserved, hsocks]
  simp [resize]

/-- Where all socket operations of the call return, `bind` returns too. The vector then has an entry
for each address, true exactly if the address was bound and listened on in this call, the sockets of
these addresses are the new ones of the server, in order, and the returned value is true exactly if
they are all addresses. -/
def BindsRight (addrs : List (Address × Pointer)) (success : List Bool) (server : TcpServer)
    (w : World κ) : Prop :=
  ∀ outcomes after, serveAll net locals thread addrs w = .ok (outcomes, after) →
    ∃ bound, server.bindAddresses net locals thread addrs success w = .ok bound ∧
      bound.success = outcomes.map Option.isSome ∧
      bound.server.socks = server.socks ++ outcomes.reduceOption ∧
      (bound.ret = true ↔ ∀ outcome ∈ outcomes, outcome.isSome = true)

/-- Every old false entry that is kept belongs to an address that fails in this call too. -/
def OldFailuresFail (addrs : List (Address × Pointer)) (success : List Bool) (w : World κ) : Prop :=
  ∀ outcomes after, serveAll net locals thread addrs w = .ok (outcomes, after) →
    ∀ (i : ℕ) (outcome : Option Socket),
      success[i]? = some false → outcomes[i]? = some outcome → outcome = none

/-- Assumes: as many flags as outcomes. The flags that are kept are the outcomes exactly if no false
flag stands at a success. -/
theorem zipWith_eq_map_iff (outcomes : List (Option Socket)) :
    ∀ flags : List Bool, flags.length = outcomes.length →
      (List.zipWith (fun flag outcome ↦ flag && outcome.isSome) flags outcomes =
          outcomes.map Option.isSome ↔
        ∀ (i : ℕ) (outcome : Option Socket),
          flags[i]? = some false → outcomes[i]? = some outcome → outcome = none) := by
  induction outcomes with
  | nil =>
    intro flags hlength
    rw [List.length_eq_zero_iff.mp hlength]
    simp
  | cons outcome rest ih =>
    intro flags hlength
    cases flags with
    | nil => exact absurd hlength.symm (Nat.succ_ne_zero _)
    | cons flag flags =>
      rw [List.zipWith_cons_cons, List.map_cons, List.cons.injEq,
        ih flags (Nat.succ_inj.mp hlength)]
      constructor
      · rintro ⟨hfirst, hrest⟩ i other hflag hother
        cases i with
        | zero =>
          obtain rfl : flag = false := by simpa using hflag
          obtain rfl : outcome = other := by simpa using hother
          cases outcome with
          | none => rfl
          | some sock => exact absurd hfirst (by simp)
        | succ i => exact hrest i other (by simpa using hflag) (by simpa using hother)
      · intro hall
        refine ⟨?_, fun i other hflag hother ↦ hall (i + 1) other (by simpa using hflag)
          (by simpa using hother)⟩
        cases flag with
        | true => exact Bool.true_and _
        | false =>
          rw [hall 0 outcome rfl rfl]
          rfl

/-- The result is right exactly if no old false entry belongs to an address that is bound and
listened on now. -/
theorem bindAddresses_right_iff (addrs : List (Address × Pointer)) (success : List Bool)
    (server : TcpServer) (w : World κ) :
    BindsRight net locals thread addrs success server w ↔
      OldFailuresFail net locals thread addrs success w := by
  refine forall_congr' fun outcomes ↦ forall_congr' fun after ↦ forall_congr' fun hserved ↦ ?_
  have hcount := length_serveAll net locals thread addrs hserved
  have hlength : (resize success addrs.length true).length = outcomes.length := by
    rw [length_resize, hcount]
  -- resizing changes no old entry that has an address
  have hflags : (∀ (i : ℕ) (outcome : Option Socket),
        (resize success addrs.length true)[i]? = some false → outcomes[i]? = some outcome →
          outcome = none) ↔
      ∀ (i : ℕ) (outcome : Option Socket),
        success[i]? = some false → outcomes[i]? = some outcome → outcome = none := by
    refine forall_congr' fun i ↦ forall_congr' fun outcome ↦ ?_
    by_cases hinside : i < addrs.length
    · rw [getElem?_resize success true hinside]
      cases success[i]? with
      | none => simp
      | some flag => simp
    · have hnone : outcomes[i]? = none := List.getElem?_eq_none (by omega)
      rw [hnone]
      simp
  rw [bindAddresses_eq net locals thread hserved, ← hflags, ← zipWith_eq_map_iff _ _ hlength]
  constructor
  · rintro ⟨bound, hbound, hsuccess, -⟩
    rw [Except.ok.injEq] at hbound
    rw [← hbound] at hsuccess
    exact hsuccess
  · intro hsuccess
    refine ⟨_, rfl, hsuccess, rfl, ?_⟩
    rw [hsuccess]
    simp

end Server

/-- A kernel in which a port is taken until somebody has tried to bind to it. -/
def busyNet : ListenOs (Int64 × Int64) where
  toNetOs := { Socket.refusingNet with
    bind := fun _ _ _ kernel ↦
      if kernel.1 = 0 then (⟨-1, 98⟩, (1, kernel.2)) else (⟨0, 0⟩, kernel) }
  listen := fun _ _ kernel ↦ (⟨0, 0⟩, kernel)

/-- The local variables over its memory. -/
def busyLocals : Locals busyNet.toOs where
  tv := 1
  val := 2
  error := 3
  len := 4
  storeTime := fun sec usec _ ↦ (sec, usec)
  storeInt := fun _ _ kernel ↦ kernel
  readTime_storeTime := fun _ _ _ ↦ rfl

/-- A retry with the same vector binds the address and still returns false. -/
theorem retry_returns_false : ∃ first second,
    TcpServer.bindAddresses busyNet busyLocals ⟨false, true⟩ [(⟨2, [0x1f, 0x90]⟩, 8)] [] ⟨[]⟩
        (World.init (0, 0)) = .ok first ∧
      first.ret = false ∧ first.success = [false] ∧ first.server.socks.length = 0 ∧
    first.server.bindAddresses busyNet busyLocals ⟨false, true⟩ [(⟨2, [0x1f, 0x90]⟩, 8)]
        first.success first.world = .ok second ∧
      second.ret = false ∧ second.success = [false] ∧ second.server.socks.length = 1 ∧
      ¬ BindsRight busyNet busyLocals ⟨false, true⟩ [(⟨2, [0x1f, 0x90]⟩, 8)] first.success
        first.server first.world := by
  refine ⟨_, _, rfl, rfl, rfl, rfl, rfl, rfl, rfl, rfl, fun hright ↦ ?_⟩
  obtain ⟨bound, hbound, hsuccess, -⟩ := hright _ _ rfl
  cases hbound
  cases hsuccess

end Cczoe.Sockets
