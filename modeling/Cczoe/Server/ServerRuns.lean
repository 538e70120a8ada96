import Cczoe.Foundations.GuardedRuns
import Mathlib.Data.List.Nodup
import Mathlib.Data.List.Perm.Subperm
import Mathlib.Order.Lattice

/-!
# Starting and stopping a `TcpServer`

`start` hands the accept loop of every socket to the `IOManager`, and `stop` hands it a closure that
closes the sockets. Both also set `m_isStop`, which every accept loop looks at in its condition. The
tasks run later, on any thread, and a fiber may be in `Socket::accept` meanwhile.

`stop` does not wait. `stopped_accepts` says what comes after it: every fiber that is in
`Socket::accept` may still accept one client, and no more. `accepting_open` says when a server may
be started again. If `start` is called only when nothing of an earlier start is left, every fiber of
a started server accepts on an open socket of its own. Otherwise the flag is false again before the
fibers have seen it, and they go on with sockets that the closure has closed.

The sockets are numbered in the order in which `bind` makes them. What `Socket::accept` returns is
an input. Log output is left out.
-/

set_option autoImplicit false
set_option relaxedAutoImplicit false

namespace Cczoe.Sockets

open Foundations

/-! ### The moves -/

/-- What a server hands to `IOManager::schedule`. -/
inductive ServerTask
  | accept (sock : ℕ)
  | handleClient (client : ℕ)
  | closeAll
  deriving DecidableEq, Repr

/-- A fiber in `TcpServer::accept`, in front of the condition of its loop or in `Socket::accept`. -/
structure AcceptFiber where
  sock : ℕ
  inAccept : Bool
  deriving DecidableEq, Repr

/-- A server with its sockets, the tasks that wait and the fibers that accept. `accepted` and
`handled` record which clients `Socket::accept` has returned and `handleClient` was called with. -/
structure Serving where
  isStop : Bool := true
  socks : List ℕ := []
  made : ℕ := 0
  closed : List ℕ := []
  tasks : List ServerTask := []
  fibers : List AcceptFiber := []
  accepted : List ℕ := []
  handled : List ℕ := []
  deriving DecidableEq, Repr

/-- What the threads do: `bind` with an address that can be listened on, `start`, `stop`, the first
task, the condition of a loop, and the return of `Socket::accept`. -/
inductive ServerMove
  | bind
  | start
  | stop
  | take
  | condition (fiber : ℕ)
  | accepted (fiber : ℕ) (client : Option ℕ)
  deriving DecidableEq, Repr

namespace Serving

/-- The first task, run by a worker. The closure of `stop` closes the sockets and forgets them. -/
def take (s : Serving) : Serving :=
  match s.tasks with
  | [] => s
  | .accept sock :: rest => { s with tasks := rest, fibers := s.fibers ++ [⟨sock, false⟩] }
  | .handleClient client :: rest => { s with tasks := rest, handled := s.handled ++ [client] }
  | .closeAll :: rest => { s with tasks := rest, closed := s.closed ++ s.socks, socks := [] }

/-- `while (!m_isStop)`. -/
def condition (s : Serving) (fiber : ℕ) : Serving :=
  match s.fibers[fiber]? with
  | some ⟨sock, false⟩ =>
    if s.isStop then { s with fibers := s.fibers.eraseIdx fiber }
    else { s with fibers := s.fibers.set fiber ⟨sock, true⟩ }
  | _ => s

/-- The body of the loop behind `sock->accept()`. -/
def returned (s : Serving) (fiber : ℕ) (client : Option ℕ) : Serving :=
  match s.fibers[fiber]? with
  | some ⟨sock, true⟩ =>
    let s := { s with fibers := s.fibers.set fiber ⟨sock, false⟩ }
    match client with
    | some client =>
      { s with tasks := s.tasks ++ [.handleClient client], accepted := s.accepted ++ [client] }
    | none => s
  | _ => s

def next (s : Serving) : ServerMove → Serving
  | .bind => { s with socks := s.socks ++ [s.made], made := s.made + 1 }
  | .start =>
    if s.isStop = false then s
    else { s with isStop := false, tasks := s.tasks ++ s.socks.map .accept }
  | .stop => { s with isStop := true, tasks := s.tasks ++ [.closeAll] }
  | .take => s.take
  | .condition fiber => s.condition fiber
  | .accepted fiber client => s.returned fiber client

def step (move : ServerMove) (s : Serving) : Except Unit (Unit × Serving) := .ok ((), s.next move)

/-- The socket of an accept loop that waits to be run. -/
def sockOf : ServerTask → Option ℕ
  | .accept sock => some sock
  | _ => none

/-- The sockets that accept loops are run with, or will be. -/
def accepting (s : Serving) : List ℕ := s.tasks.filterMap sockOf ++ s.fibers.map AcceptFiber.sock

/-- Nothing of an earlier start is left. -/
def Quiet (s : Serving) : Prop := s.accepting = [] ∧ ServerTask.closeAll ∉ s.tasks

/-- A server is started again when nothing of an earlier start is left. -/
def StartsQuiet (s : Serving) (move : ServerMove) : Prop :=
  move = .start → s.isStop = true → s.Quiet

/-! ### What a move does -/

/-- A move of the tasks and the fibers that starts no accept loop. -/
structure Moved (s after : Serving) : Prop where
  isStop : after.isStop = s.isStop
  socks : after.socks = s.socks
  made : after.made = s.made
  closed : after.closed = s.closed
  accepting : after.accepting.Subperm s.accepting
  tasks : ServerTask.closeAll ∈ after.tasks → ServerTask.closeAll ∈ s.tasks

theorem Moved.refl (s : Serving) : s.Moved s :=
  ⟨rfl, rfl, rfl, rfl, List.Subperm.refl _, fun h ↦ h⟩

section Moves

variable {s after : Serving}

/-- The first task is an accept loop or a client, or it closes the sockets. -/
theorem take_cases (s : Serving) : s.Moved s.take ∨ ∃ rest, s.tasks = .closeAll :: rest ∧
    s.take = { s with tasks := rest, closed := s.closed ++ s.socks, socks := [] } := by
  unfold Serving.take
  cases htasks : s.tasks with
  | nil => exact Or.inl (Moved.refl s)
  | cons task rest =>
    have hclose (hmem : ServerTask.closeAll ∈ rest) : ServerTask.closeAll ∈ s.tasks := by
      rw [htasks]
      exact List.mem_cons_of_mem _ hmem
    have haccepting : s.accepting =
        (task :: rest).filterMap sockOf ++ s.fibers.map AcceptFiber.sock := by
      rw [accepting, htasks]
    cases task with
    | accept sock =>
      refine Or.inl ⟨rfl, rfl, rfl, rfl, List.Perm.subperm ?_, hclose⟩
      rw [haccepting]
      simp only [accepting, List.map_append, List.map_cons, List.map_nil, ← List.append_assoc]
      exact List.perm_append_singleton sock _
    | handleClient client =>
      refine Or.inl ⟨rfl, rfl, rfl, rfl, ?_, hclose⟩
      rw [haccepting]
      exact List.Subperm.refl _
    | closeAll => exact Or.inr ⟨rest, rfl, rfl⟩

/-- A fiber that goes on in its loop has the same socket. -/
theorem map_sock_set {fibers : List AcceptFiber} {fiber sock : ℕ} {before after : Bool}
    (hfiber : fibers[fiber]? = some ⟨sock, before⟩) :
    (fibers.set fiber ⟨sock, after⟩).map AcceptFiber.sock = fibers.map AcceptFiber.sock := by
  rw [List.map_set]
  refine List.ext_getElem? fun i ↦ ?_
  rw [List.getElem?_set]
  split_ifs with hsame hlt
  · rw [← hsame, List.getElem?_map, hfiber]
    rfl
  · rw [← hsame, List.getElem?_eq_none (not_lt.mp hlt)]
  · rfl

theorem moved_condition (s : Serving) (fiber : ℕ) : s.Moved (s.condition fiber) := by
  unfold Serving.condition
  split
  case h_1 sock hfiber =>
    split_ifs
    · refine ⟨rfl, rfl, rfl, rfl, List.Sublist.subperm ?_, fun h ↦ h⟩
      exact List.Sublist.append_left ((List.eraseIdx_sublist _ _).map _) _
    · refine ⟨rfl, rfl, rfl, rfl, ?_, fun h ↦ h⟩
      rw [accepting, map_sock_set hfiber]
      exact List.Subperm.refl _
  case h_2 => exact Moved.refl s

/-- A task that is no accept loop adds nothing. -/
theorem accepting_append (s : Serving) (task : ServerTask) (htask : sockOf task = none) :
    accepting { s with tasks := s.tasks ++ [task] } = s.accepting := by
  unfold accepting
  rw [List.filterMap_append, List.filterMap_cons_none htask, List.filterMap_nil, List.append_nil]

theorem moved_returned (s : Serving) (fiber : ℕ) (client : Option ℕ) :
    s.Moved (s.returned fiber client) := by
  unfold Serving.returned
  split
  case h_1 sock hfiber =>
    have haccepting : accepting { s with fibers := s.fibers.set fiber ⟨sock, false⟩ } =
        s.accepting := by
      simp only [accepting, map_sock_set hfiber]
    cases client with
    | none =>
      refine ⟨rfl, rfl, rfl, rfl, ?_, fun h ↦ h⟩
      simp only
      rw [haccepting]
    | some client =>
      refine ⟨rfl, rfl, rfl, rfl, ?_, fun hmem ↦ ?_⟩
      · have happend := accepting_append { s with fibers := s.fibers.set fiber ⟨sock, false⟩ }
          (.handleClient client) rfl
        exact (congrArg (List.Subperm · _) (happend.trans haccepting)).mpr (List.Subperm.refl _)
      · rcases List.mem_append.mp hmem with hold | hnew
        · exact hold
        · cases List.mem_singleton.mp hnew
  case h_2 => exact Moved.refl s

/-- Only `start` adds accept loops. -/
theorem accepting_next (s : Serving) (move : ServerMove) (hne : move ≠ .start) :
    (s.next move).accepting.Subperm s.accepting := by
  cases move with
  | bind => exact List.Subperm.refl _
  | start => exact absurd rfl hne
  | stop =>
    have haccepting := accepting_append { s with isStop := true } .closeAll rfl
    exact (congrArg (List.Subperm · _) haccepting).mpr (List.Subperm.refl _)
  | take =>
    change s.take.accepting.Subperm s.accepting
    rcases take_cases s with hmoved | ⟨rest, htasks, htake⟩
    · exact hmoved.accepting
    · have hsame : s.take.accepting = s.accepting := by
        rw [htake, accepting, accepting, htasks]
        rfl
      rw [hsame]
  | condition fiber => exact (moved_condition s fiber).accepting
  | accepted fiber client => exact (moved_returned s fiber client).accepting

/-! ### One socket for each fiber -/

/-- What every move keeps when servers are started as `StartsQuiet` says. -/
structure Sound (s : Serving) : Prop where
  nodup : s.socks.Nodup
  open_ : ∀ sock ∈ s.socks, sock < s.made ∧ sock ∉ s.closed
  closed_lt : ∀ sock ∈ s.closed, sock < s.made
  distinct : s.accepting.Nodup
  serving : s.isStop = false →
    ServerTask.closeAll ∉ s.tasks ∧ ∀ sock ∈ s.accepting, sock ∈ s.socks

theorem nodup_of_subperm {first second : List ℕ} (hsubperm : first.Subperm second)
    (hsecond : second.Nodup) : first.Nodup := by
  obtain ⟨middle, hperm, hsublist⟩ := hsubperm
  exact hperm.nodup_iff.mp (hsecond.sublist hsublist)

theorem Sound.moved (hs : s.Sound) (hmoved : s.Moved after) : after.Sound where
  nodup := by
    rw [hmoved.socks]
    exact hs.nodup
  open_ := by
    rw [hmoved.socks, hmoved.made, hmoved.closed]
    exact hs.open_
  closed_lt := by
    rw [hmoved.closed, hmoved.made]
    exact hs.closed_lt
  distinct := nodup_of_subperm hmoved.accepting hs.distinct
  serving := by
    rw [hmoved.isStop, hmoved.socks]
    intro hstarted
    obtain ⟨hnone, hmem⟩ := hs.serving hstarted
    exact ⟨fun hclose ↦ hnone (hmoved.tasks hclose),
      fun sock hsock ↦ hmem sock (hmoved.accepting.subset hsock)⟩

theorem Sound.bind (hs : s.Sound) : (s.next .bind).Sound where
  nodup := by
    refine List.nodup_append.mpr ⟨hs.nodup, List.nodup_singleton _, ?_⟩
    intro sock hsock other hother
    rw [List.mem_singleton.mp hother]
    exact (hs.open_ sock hsock).1.ne
  open_ := by
    intro sock hsock
    rcases List.mem_append.mp hsock with hold | hnew
    · exact ⟨Nat.lt_succ_of_lt (hs.open_ sock hold).1, (hs.open_ sock hold).2⟩
    · rw [List.mem_singleton.mp hnew]
      exact ⟨Nat.lt_succ_self _, fun hclosed ↦ (hs.closed_lt _ hclosed).ne rfl⟩
  closed_lt := fun sock hsock ↦ Nat.lt_succ_of_lt (hs.closed_lt sock hsock)
  distinct := hs.distinct
  serving := fun hstarted ↦ ⟨(hs.serving hstarted).1,
    fun sock hsock ↦ List.mem_append_left _ ((hs.serving hstarted).2 sock hsock)⟩

theorem filterMap_accept (socks : List ℕ) :
    (socks.map ServerTask.accept).filterMap sockOf = socks := by
  rw [List.filterMap_map]
  exact List.filterMap_some

theorem Sound.start (hs : s.Sound) (hquiet : s.isStop = true → s.Quiet) :
    (s.next .start).Sound := by
  unfold next
  simp only
  split_ifs with hstarted
  · exact hs
  · obtain ⟨hnone, hclose⟩ := hquiet (Bool.eq_true_of_not_eq_false hstarted)
    obtain ⟨htasks, hfibers⟩ := List.append_eq_nil_iff.mp hnone
    have haccepting : accepting { s with
        isStop := false, tasks := s.tasks ++ s.socks.map .accept } = s.socks := by
      unfold accepting
      rw [List.filterMap_append, htasks, hfibers, filterMap_accept, List.nil_append,
        List.append_nil]
    refine ⟨hs.nodup, hs.open_, hs.closed_lt, ?_, fun _ ↦ ⟨?_, ?_⟩⟩
    · rw [haccepting]
      exact hs.nodup
    · intro hmem
      rcases List.mem_append.mp hmem with hold | hnew
      · exact hclose hold
      · obtain ⟨sock, -, hsock⟩ := List.mem_map.mp hnew
        cases hsock
    · rw [haccepting]
      exact fun sock hsock ↦ hsock

theorem Sound.stop (hs : s.Sound) : (s.next .stop).Sound where
  nodup := hs.nodup
  open_ := hs.open_
  closed_lt := hs.closed_lt
  distinct := nodup_of_subperm (accepting_next s .stop (by decide)) hs.distinct
  serving := fun hstarted ↦ absurd hstarted Bool.false_ne_true.symm

theorem Sound.take (hs : s.Sound) : (s.next .take).Sound := by
  have hdistinct := nodup_of_subperm (accepting_next s .take (by decide)) hs.distinct
  change s.take.Sound
  change s.take.accepting.Nodup at hdistinct
  rcases take_cases s with hmoved | ⟨rest, htasks, htake⟩
  · exact hs.moved hmoved
  · -- a started server has no closure among its tasks
    have hstopped : s.isStop = true := by
      by_contra hstarted
      refine (hs.serving (Bool.eq_false_of_not_eq_true hstarted)).1 ?_
      rw [htasks]
      exact List.mem_cons_self
    rw [htake] at hdistinct ⊢
    refine ⟨List.nodup_nil, fun sock hsock ↦ absurd hsock List.not_mem_nil, ?_, hdistinct, ?_⟩
    · intro sock hsock
      rcases List.mem_append.mp hsock with hold | hnew
      · exact hs.closed_lt sock hold
      · exact (hs.open_ sock hnew).1
    · exact fun hstarted ↦ absurd (hstopped.symm.trans hstarted) Bool.false_ne_true.symm

theorem Sound.next {move : ServerMove} (hs : s.Sound) (hguard : s.StartsQuiet move) :
    (s.next move).Sound := by
  cases move with
  | bind => exact hs.bind
  | start => exact hs.start (hguard rfl)
  | stop => exact hs.stop
  | take => exact hs.take
  | condition fiber => exact hs.moved (moved_condition s fiber)
  | accepted fiber client => exact hs.moved (moved_returned s fiber client)

end Moves

theorem sound_start : Sound {} where
  nodup := List.nodup_nil
  open_ := fun _ hsock ↦ absurd hsock List.not_mem_nil
  closed_lt := fun _ hsock ↦ absurd hsock List.not_mem_nil
  distinct := List.nodup_nil
  serving := fun hstarted ↦ absurd hstarted Bool.false_ne_true.symm

/-- Assumes: a run in which the server is started only when nothing of an earlier start is left, in
whatever order the threads move. While it is started, every accept loop has a socket of its own,
which is one of the sockets of the server and open. -/
theorem accepting_open {trace : List (ServerMove × Unit)} {final : Serving}
    (hrun : Run step StartsQuiet {} trace final) (hstarted : final.isStop = false) :
    final.accepting.Nodup ∧
      ∀ sock ∈ final.accepting, sock ∈ final.socks ∧ sock ∉ final.closed := by
  have hsound : final.Sound := by
    let sound : List (ServerMove × Unit) → Serving → Prop := fun _ now ↦ now.Sound
    have hstart : sound [] {} := sound_start
    refine hrun.history_invariant hstart ?_
    rintro trace now move output after hnow hguard hstep
    cases hstep
    exact hnow.next hguard
  refine ⟨hsound.distinct, fun sock hsock ↦ ?_⟩
  have hmem := (hsound.serving hstarted).2 sock hsock
  exact ⟨hmem, (hsound.open_ sock hmem).2⟩

/-- Two sockets are bound and served, and one of the fibers is in `Socket::accept`. -/
theorem accepting_open_two :
    ∃ (trace : List (ServerMove × Unit)) (final : Serving),
      Run step StartsQuiet {} trace final ∧ final.socks = [0, 1] ∧ final.accepting = [0, 1] ∧
        final.accepting.Nodup ∧
        ∀ sock ∈ final.accepting, sock ∈ final.socks ∧ sock ∉ final.closed := by
  have hbound : Run step StartsQuiet {} _ _ :=
    (Run.nil.snoc (fun h ↦ by cases h) (show step .bind _ = .ok (_, _) from rfl)).snoc
      (fun h ↦ by cases h) (show step .bind _ = .ok (_, _) from rfl)
  have hstarted := hbound.snoc (fun _ _ ↦ ⟨rfl, List.not_mem_nil⟩)
    (show step .start _ = .ok (_, _) from rfl)
  have htaken := (hstarted.snoc (fun h ↦ by cases h)
    (show step .take _ = .ok (_, _) from rfl)).snoc (fun h ↦ by cases h)
      (show step .take _ = .ok (_, _) from rfl)
  have hwaiting := htaken.snoc (fun h ↦ by cases h)
    (show step (.condition 0) _ = .ok (_, _) from rfl)
  exact ⟨_, _, hwaiting, rfl, rfl, accepting_open hwaiting rfl⟩

-- a server that is started again at once has two fibers at a closed socket
example : List.foldl next {} [.bind, .start, .take, .condition 0, .stop, .start, .take, .take] =
    { isStop := false, made := 1, closed := [0], fibers := [⟨0, true⟩, ⟨0, false⟩] } := by decide

/-! ### Behind `stop` -/

/-- The fibers in `Socket::accept`. -/
def inAccept (s : Serving) : ℕ := s.fibers.countP AcceptFiber.inAccept

/-- A fiber of a stopped server leaves its loop, or returns with a client for the last time. -/
theorem stopped_next {s : Serving} {move : ServerMove} (hne : move ≠ .start)
    (hstop : s.isStop = true) : (s.next move).isStop = true ∧
      (s.next move).accepted.length + (s.next move).inAccept ≤ s.accepted.length + s.inAccept := by
  cases move with
  | bind => exact ⟨hstop, le_rfl⟩
  | start => exact absurd rfl hne
  | stop => exact ⟨rfl, le_rfl⟩
  | take =>
    change s.take.isStop = true ∧ s.take.accepted.length + s.take.inAccept ≤ _
    unfold Serving.take
    split
    · exact ⟨hstop, le_rfl⟩
    · refine ⟨hstop, ?_⟩
      simp only [inAccept, List.countP_append]
      exact le_rfl
    · exact ⟨hstop, le_rfl⟩
    · exact ⟨hstop, le_rfl⟩
  | condition fiber =>
    change (s.condition fiber).isStop = true ∧
      (s.condition fiber).accepted.length + (s.condition fiber).inAccept ≤ _
    unfold Serving.condition
    split
    case h_1 sock hfiber =>
      rw [if_pos hstop]
      exact ⟨hstop, Nat.add_le_add_left (List.eraseIdx_sublist _ _).countP_le _⟩
    case h_2 => exact ⟨hstop, le_rfl⟩
  | accepted fiber client =>
    change (s.returned fiber client).isStop = true ∧
      (s.returned fiber client).accepted.length + (s.returned fiber client).inAccept ≤ _
    unfold Serving.returned
    split
    case h_1 sock hfiber =>
      obtain ⟨hlt, hget⟩ := List.getElem?_eq_some_iff.mp hfiber
      have hcount : (s.fibers.set fiber ⟨sock, false⟩).countP AcceptFiber.inAccept + 1 =
          s.inAccept := by
        have hpos : 0 < s.fibers.countP AcceptFiber.inAccept :=
          List.countP_pos_iff.mpr ⟨_, List.mem_of_getElem? hfiber, rfl⟩
        rw [List.countP_set hlt, hget]
        simp only [inAccept, if_true, Bool.false_eq_true, if_false]
        omega
      cases client with
      | none =>
        refine ⟨hstop, ?_⟩
        simp only [inAccept] at hcount ⊢
        omega
      | some client =>
        refine ⟨hstop, ?_⟩
        simp only [inAccept, List.length_append, List.length_singleton] at hcount ⊢
        omega
    case h_2 => exact ⟨hstop, le_rfl⟩

/-- Assumes: a stopped server, and a run in which it is not started again, in whatever order the
threads move. It accepts no more clients than fibers were in `Socket::accept`, and there are no new
accept loops. -/
theorem stopped_accepts {s final : Serving} {trace : List (ServerMove × Unit)}
    (hstop : s.isStop = true) (hrun : Run step (fun _ move ↦ move ≠ .start) s trace final) :
    final.accepted.length ≤ s.accepted.length + s.inAccept ∧
      final.accepting.Subperm s.accepting := by
  let stopped : List (ServerMove × Unit) → Serving → Prop := fun _ now ↦ now.isStop = true ∧
    now.accepted.length + now.inAccept ≤ s.accepted.length + s.inAccept ∧
      now.accepting.Subperm s.accepting
  have hstart : stopped [] s := ⟨hstop, le_rfl, List.Subperm.refl _⟩
  obtain ⟨-, hle, haccepting⟩ : stopped trace final := by
    refine hrun.history_invariant hstart ?_
    rintro trace now move output after ⟨hnow, hle, haccepting⟩ hne hstep
    cases hstep
    obtain ⟨hafter, hle'⟩ := stopped_next hne hnow
    exact ⟨hafter, hle'.trans hle, (accepting_next now move hne).trans haccepting⟩
  exact ⟨(Nat.le_add_right _ _).trans hle, haccepting⟩

/-- A fiber returns with a client behind `stop`, and leaves its loop. -/
theorem stopped_accepts_one :
    ∃ (s final : Serving) (trace : List (ServerMove × Unit)),
      s = [ServerMove.bind, .start, .take, .condition 0, .stop].foldl next {} ∧
        Run step (fun _ move ↦ move ≠ .start) s trace final ∧ final.accepted = [7] ∧
        final.accepting = [] ∧ final.accepted.length ≤ s.accepted.length + s.inAccept ∧
        final.accepting.Subperm s.accepting := by
  have hreturned : Run step (fun _ move ↦ move ≠ .start)
      ([ServerMove.bind, .start, .take, .condition 0, .stop].foldl next {}) _ _ :=
    Run.nil.snoc (by decide) (show step (.accepted 0 (some 7)) _ = .ok (_, _) from rfl)
  have hleft := hreturned.snoc (by decide)
    (show step (.condition 0) _ = .ok (_, _) from rfl)
  exact ⟨_, _, _, rfl, hleft, rfl, rfl, stopped_accepts rfl hleft⟩

end Serving

end Cczoe.Sockets
