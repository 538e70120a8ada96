import Cczoe.Config.Registry
import Mathlib.Data.List.Nodup

/-!
# What listeners are told

`ConfigVar::setValue` tells every listener the old and the new value and then stores the new one. A
listener that throws ends the loop: the value stays as it was, and the listeners up to that one have
been told of a change that does not take place. `fromString` turns an exception derived from
`std::exception` into the result false, and lets others pass.

The value is unchanged whenever `fromString` returns false (`fromString_of_false`). The changes that
a listener was told of form a chain from the first value to the present one if and only if every
call that told it of a change has come to the end of the loop (`listener_chain_iff`).

A listener may do something else in each call, so a call comes with what every listener does in it.
`fromString_listened` is the connection to variables whose listeners are functions of the two
values.
-/

set_option autoImplicit false
set_option relaxedAutoImplicit false

namespace Cczoe.Config

/-- What is thrown: an object of a class derived from `std::exception`, or something else. -/
inductive Thrown
  | standard
  | foreign
  deriving DecidableEq, Repr

/-- A call of a listener. -/
structure Notice (κ α : Type) where
  key : κ
  old : α
  new : α
  deriving DecidableEq, Repr

/-- The value of a `ConfigVar<T>`, and the keys of `m_callbacks` in the order of the map. -/
structure Listened (κ α : Type) where
  value : α
  callbacks : List κ
  nodup : callbacks.Nodup

/-- What a call of `setValue` does: the listeners it has called, what it throws, and the variable
afterwards. -/
structure Effect (κ α : Type) where
  notices : List (Notice κ α)
  thrown : Option Thrown
  after : Listened κ α

/-- How `fromString` ends. -/
inductive Ending
  | returned (ret : Bool)
  | threw (thrown : Thrown)
  deriving DecidableEq, Repr

/-- What a call of `fromString` does. -/
structure Outcome (κ α : Type) where
  notices : List (Notice κ α)
  ending : Ending
  after : Listened κ α

/-- The calls that change a variable. -/
inductive SetCall (α : Type)
  | setValue (val : α)
  | fromString (text : Text)

/-- A call with what each listener throws in it, if anything. -/
structure Request (κ α : Type) where
  call : SetCall α
  throws : κ → Option Thrown

namespace Listened

variable {κ α : Type}

/-- The loop of `setValue` over the listeners, with the exception that ends it. -/
def notify (throws : κ → Option Thrown) (old new : α) :
    List κ → List (Notice κ α) × Option Thrown
  | [] => ([], none)
  | key :: rest =>
    match throws key with
    | some thrown => ([⟨key, old, new⟩], some thrown)
    | none =>
      let others := notify throws old new rest
      (⟨key, old, new⟩ :: others.1, others.2)

variable (same : α → α → Bool) (fromStr : Text → Except Thrown α)

/-- `setValue`. -/
def setValue (val : α) (throws : κ → Option Thrown) (var : Listened κ α) : Effect κ α :=
  if same var.value val then ⟨[], none, var⟩
  else
    let told := notify throws var.value val var.callbacks
    match told.2 with
    | some thrown => ⟨told.1, some thrown, var⟩
    | none => ⟨told.1, none, { var with value := val }⟩

/-- `fromString`. -/
def fromString (text : Text) (throws : κ → Option Thrown) (var : Listened κ α) : Outcome κ α :=
  match fromStr text with
  | .error .standard => ⟨[], .returned false, var⟩
  | .error .foreign => ⟨[], .threw .foreign, var⟩
  | .ok val =>
    let effect := setValue same val throws var
    match effect.thrown with
    | none => ⟨effect.notices, .returned true, effect.after⟩
    | some .standard => ⟨effect.notices, .returned false, effect.after⟩
    | some .foreign => ⟨effect.notices, .threw .foreign, effect.after⟩

/-- One call, as the listeners and the next call see it. -/
def perform (request : Request κ α) (var : Listened κ α) : List (Notice κ α) × Listened κ α :=
  match request.call with
  | .setValue val =>
    let effect := setValue same val request.throws var
    (effect.notices, effect.after)
  | .fromString text =>
    let outcome := fromString same fromStr text request.throws var
    (outcome.notices, outcome.after)

/-- Calls one after the other. -/
def run : List (Request κ α) → Listened κ α → List (Notice κ α) × Listened κ α
  | [], var => ([], var)
  | request :: rest, var =>
    let first := perform same fromStr request var
    let others := run rest first.2
    (first.1 ++ others.1, others.2)

/-- The value that a call is to set, if there is one. -/
def wanted (request : Request κ α) : Option α :=
  match request.call with
  | .setValue val => some val
  | .fromString text => (fromStr text).toOption

/-! ### One call -/

/-- An exception leaves the variable as it was. -/
theorem setValue_of_thrown {val : α} {throws : κ → Option Thrown} {var : Listened κ α}
    {thrown : Thrown} (hthrown : (setValue same val throws var).thrown = some thrown) :
    (setValue same val throws var).after = var := by
  rw [setValue] at hthrown ⊢
  by_cases hsame : same var.value val = true
  · rw [if_pos hsame]
  · rw [if_neg hsame] at hthrown ⊢
    cases htold : (notify throws var.value val var.callbacks).2 with
    | some thrown => simp only [htold]
    | none =>
      simp only [htold] at hthrown
      exact absurd hthrown (by simp)

/-- `fromString` returns false only with the variable as it was. -/
theorem fromString_of_false {text : Text} {throws : κ → Option Thrown} {var : Listened κ α}
    (hfalse : (fromString same fromStr text throws var).ending = .returned false) :
    (fromString same fromStr text throws var).after = var := by
  cases hvalue : fromStr text with
  | error thrown =>
    cases thrown with
    | standard => simp only [fromString, hvalue]
    | foreign =>
      simp only [fromString, hvalue] at hfalse
      exact absurd hfalse (by simp)
  | ok val =>
    cases hthrown : (setValue same val throws var).thrown with
    | none =>
      simp only [fromString, hvalue, hthrown] at hfalse
      exact absurd hfalse (by simp)
    | some thrown =>
      have hafter := setValue_of_thrown same hthrown
      cases thrown with
      | standard => simp only [fromString, hvalue, hthrown, hafter]
      | foreign =>
        simp only [fromString, hvalue, hthrown] at hfalse
        exact absurd hfalse (by simp)

/-- A call without a value to set does nothing, and any other one calls `setValue`. -/
theorem perform_eq (request : Request κ α) (var : Listened κ α) :
    perform same fromStr request var =
      match wanted fromStr request with
      | none => ([], var)
      | some val => ((setValue same val request.throws var).notices,
          (setValue same val request.throws var).after) := by
  obtain ⟨call, throws⟩ := request
  cases call with
  | setValue val => rfl
  | fromString text =>
    rw [perform, wanted]
    simp only
    cases hvalue : fromStr text with
    | error thrown =>
      cases thrown with
      | standard => simp only [fromString, hvalue, Except.toOption]
      | foreign => simp only [fromString, hvalue, Except.toOption]
    | ok val =>
      simp only [Except.toOption]
      cases hthrown : (setValue same val throws var).thrown with
      | none => simp only [fromString, hvalue, hthrown]
      | some thrown =>
        cases thrown with
        | standard => simp only [fromString, hvalue, hthrown]
        | foreign => simp only [fromString, hvalue, hthrown]

/-! ### What one listener is told -/

/-- The loop comes to its end exactly if no listener throws. -/
theorem notify_thrown_eq_none_iff (throws : κ → Option Thrown) (old new : α) (callbacks : List κ) :
    (notify throws old new callbacks).2 = none ↔ ∀ other ∈ callbacks, throws other = none := by
  induction callbacks with
  | nil => simp [notify]
  | cons head rest ih =>
    rw [notify, List.forall_mem_cons]
    cases hthrows : throws head with
    | some thrown => simp
    | none => simp [ih]

variable [DecidableEq κ]

/-- The calls of one listener. -/
def seen (key : κ) (notices : List (Notice κ α)) : List (Notice κ α) :=
  notices.filter fun notice ↦ notice.key = key

/-- The loop comes to the listener: none in front of it throws. -/
def Reached (throws : κ → Option Thrown) (key : κ) (callbacks : List κ) : Prop :=
  ∀ other ∈ callbacks.takeWhile (· ≠ key), throws other = none

theorem seen_append (key : κ) (first second : List (Notice κ α)) :
    seen key (first ++ second) = seen key first ++ seen key second := List.filter_append ..

theorem seen_notify_of_not_mem {key : κ} (throws : κ → Option Thrown) (old new : α)
    {callbacks : List κ} (hkey : key ∉ callbacks) :
    seen key (notify throws old new callbacks).1 = [] := by
  induction callbacks with
  | nil => rfl
  | cons head rest ih =>
    rw [List.mem_cons, not_or] at hkey
    have hhead : head ≠ key := Ne.symm hkey.1
    rw [notify]
    cases throws head with
    | some thrown => simp [seen, hhead]
    | none =>
      have hrest := ih hkey.2
      rw [seen] at hrest ⊢
      rw [List.filter_cons_of_neg (by simpa using hhead), hrest]

/-- Assumes: distinct listeners, and one of them that the loop comes to. It is called once. -/
theorem seen_notify_of_reached {key : κ} {throws : κ → Option Thrown} (old new : α)
    {callbacks : List κ} (hkey : key ∈ callbacks) (hnodup : callbacks.Nodup)
    (hreached : Reached throws key callbacks) :
    seen key (notify throws old new callbacks).1 = [⟨key, old, new⟩] := by
  induction callbacks with
  | nil => exact absurd hkey List.not_mem_nil
  | cons head rest ih =>
    rw [List.nodup_cons] at hnodup
    rw [notify]
    by_cases hhead : head = key
    · subst hhead
      cases throws head with
      | some thrown => simp [seen]
      | none =>
        have hrest := seen_notify_of_not_mem throws old new hnodup.1
        rw [seen] at hrest ⊢
        rw [List.filter_cons_of_pos (by simp), hrest]
    · have hmem : key ∈ rest := (List.mem_cons.mp hkey).resolve_left (Ne.symm hhead)
      rw [Reached, List.takeWhile_cons_of_pos (by simpa using hhead), List.forall_mem_cons]
        at hreached
      have hrest := ih hmem hnodup.2 hreached.2
      rw [hreached.1, seen] at *
      rw [List.filter_cons_of_neg (by simpa using hhead), hrest]

/-- Assumes: a listener that the loop does not come to. It is not called. -/
theorem seen_notify_of_not_reached {key : κ} {throws : κ → Option Thrown} (old new : α)
    {callbacks : List κ} (hreached : ¬ Reached throws key callbacks) :
    seen key (notify throws old new callbacks).1 = [] := by
  induction callbacks with
  | nil => exact absurd (fun other hother ↦ absurd hother List.not_mem_nil) hreached
  | cons head rest ih =>
    by_cases hhead : head = key
    · refine absurd ?_ hreached
      rw [Reached, List.takeWhile_cons_of_neg (by simpa using hhead)]
      exact fun other hother ↦ absurd hother List.not_mem_nil
    · rw [Reached, List.takeWhile_cons_of_pos (by simpa using hhead), List.forall_mem_cons,
        not_and] at hreached
      rw [notify]
      cases hthrows : throws head with
      | some thrown => simp [seen, hhead]
      | none =>
        have hrest := ih (hreached hthrows)
        rw [seen] at hrest ⊢
        rw [List.filter_cons_of_neg (by simpa using hhead), hrest]

/-- If the call tells the listener of another value, no listener throws in it. -/
def Completes (key : κ) (request : Request κ α) (var : Listened κ α) : Prop :=
  ∀ val, wanted fromStr request = some val → same var.value val = false →
    Reached request.throws key var.callbacks → val ≠ var.value →
    ∀ other ∈ var.callbacks, request.throws other = none

/-- What a call does to a registered listener: it is not called and the value stays, or it is called
and the value it is told of is stored, or it is called and the value stays, which is a call that
completes only if there was no other value to store. -/
theorem perform_cases {key : κ} (request : Request κ α) {var : Listened κ α}
    (hkey : key ∈ var.callbacks) :
    (seen key (perform same fromStr request var).1 = [] ∧
      (perform same fromStr request var).2 = var ∧ Completes same fromStr key request var) ∨
    ∃ val, seen key (perform same fromStr request var).1 = [⟨key, var.value, val⟩] ∧
      ((perform same fromStr request var).2 = { var with value := val } ∧
          Completes same fromStr key request var ∨
        (perform same fromStr request var).2 = var ∧
          (Completes same fromStr key request var ↔ val = var.value)) := by
  rw [perform_eq]
  cases hwanted : wanted fromStr request with
  | none =>
    refine Or.inl ⟨rfl, rfl, fun val hval ↦ ?_⟩
    rw [hwanted] at hval
    exact absurd hval (by simp)
  | some val =>
    have hcompletes : Completes same fromStr key request var ↔
        (same var.value val = false → Reached request.throws key var.callbacks →
          val ≠ var.value → ∀ other ∈ var.callbacks, request.throws other = none) := by
      rw [Completes, hwanted]
      simp
    rw [hcompletes]
    simp only [setValue]
    by_cases hsame : same var.value val = true
    · rw [if_pos hsame]
      refine Or.inl ⟨rfl, rfl, fun hdiffer ↦ ?_⟩
      rw [hsame] at hdiffer
      exact absurd hdiffer (by simp)
    · rw [if_neg hsame]
      have hend := notify_thrown_eq_none_iff request.throws var.value val var.callbacks
      by_cases hreached : Reached request.throws key var.callbacks
      · have hseen := seen_notify_of_reached var.value val hkey var.nodup hreached
        refine Or.inr ⟨val, ?_⟩
        cases hthrown : (notify request.throws var.value val var.callbacks).2 with
        | none =>
          dsimp only
          exact ⟨hseen, Or.inl ⟨rfl, fun _ _ _ ↦ hend.mp hthrown⟩⟩
        | some thrown =>
          dsimp only
          refine ⟨hseen, Or.inr ⟨rfl, fun hall ↦ ?_, fun hval _ _ hne ↦ absurd hval hne⟩⟩
          by_contra hne
          have hnone := hend.mpr (hall ((Bool.not_eq_true _).mp hsame) hreached hne)
          rw [hthrown] at hnone
          exact absurd hnone (by simp)
      · have hseen := seen_notify_of_not_reached var.value val hreached
        cases hthrown : (notify request.throws var.value val var.callbacks).2 with
        | none =>
          -- a loop that comes to its end comes to every listener
          refine absurd (fun other hother ↦ ?_) hreached
          exact hend.mp hthrown other (List.takeWhile_subset _ hother)
        | some thrown =>
          dsimp only
          exact Or.inl ⟨hseen, rfl, fun _ hcalled ↦ absurd hcalled hreached⟩

/-! ### Chains -/

/-- Each old value is the new value before it, from `start` on, and the last new value is
`final`. -/
def Chain : α → List (Notice κ α) → α → Prop
  | start, [], final => final = start
  | start, notice :: rest, final => notice.old = start ∧ Chain notice.new rest final

/-- Every call that tells the listener of another value comes to its end. -/
def AllComplete (key : κ) : List (Request κ α) → Listened κ α → Prop
  | [], _ => True
  | request :: rest, var =>
    Completes same fromStr key request var ∧
      AllComplete key rest (perform same fromStr request var).2

/-- A run does not change the listeners. -/
theorem perform_callbacks {key : κ} (request : Request κ α) {var : Listened κ α}
    (hkey : key ∈ var.callbacks) : key ∈ (perform same fromStr request var).2.callbacks := by
  rcases perform_cases same fromStr request hkey with ⟨-, hafter, -⟩ | ⟨val, -, hafter⟩
  · rwa [hafter]
  · rcases hafter with ⟨hafter, -⟩ | ⟨hafter, -⟩
    · rw [hafter]
      exact hkey
    · rwa [hafter]

/-- What a registered listener is told in a run starts with the value at the start. -/
theorem start_eq_of_chain {key : κ} (requests : List (Request κ α)) :
    ∀ {var : Listened κ α} {start : α}, key ∈ var.callbacks →
      Chain start (seen key (run same fromStr requests var).1)
        (run same fromStr requests var).2.value → start = var.value := by
  induction requests with
  | nil => exact fun _ hchain ↦ hchain.symm
  | cons request rest ih =>
    intro var start hkey hchain
    have hnext := perform_callbacks same fromStr request hkey
    rw [run] at hchain
    simp only [seen_append] at hchain
    rcases perform_cases same fromStr request hkey with ⟨hseen, hafter, -⟩ | ⟨val, hseen, -⟩
    · rw [hseen, List.nil_append] at hchain
      rw [ih hnext hchain, hafter]
    · rw [hseen, List.singleton_append] at hchain
      exact hchain.1.symm

theorem chain_seen_iff {key : κ} (requests : List (Request κ α)) :
    ∀ {var : Listened κ α}, key ∈ var.callbacks →
      (Chain var.value (seen key (run same fromStr requests var).1)
          (run same fromStr requests var).2.value ↔
        AllComplete same fromStr key requests var) := by
  induction requests with
  | nil => exact fun _ ↦ iff_of_true rfl trivial
  | cons request rest ih =>
    intro var hkey
    have hnext := perform_callbacks same fromStr request hkey
    have hrest := ih hnext
    rw [run, AllComplete, ← hrest]
    simp only [seen_append]
    rcases perform_cases same fromStr request hkey with
      ⟨hseen, hafter, hcompletes⟩ | ⟨val, hseen, ⟨hafter, hcompletes⟩ | ⟨hafter, hcompletes⟩⟩
    · rw [hseen, List.nil_append, hafter]
      exact (and_iff_right hcompletes).symm
    · rw [hseen, List.singleton_append, and_iff_right hcompletes, Chain, hafter]
      exact and_iff_right rfl
    · -- the value of the next notice is the old one
      rw [hseen, List.singleton_append, hcompletes, Chain, and_iff_right rfl]
      constructor
      · intro hchain
        have hval := start_eq_of_chain same fromStr rest hnext hchain
        rw [hafter] at hval
        rw [hval, hafter] at hchain
        exact ⟨hval, by rwa [hafter]⟩
      · rintro ⟨hval, hchain⟩
        rw [hafter] at hchain ⊢
        rwa [hval]

/-- `fromString` returns false only with the value unchanged, and what a listener was told of in the
run is a chain from the value at the start to the value at the end. -/
def TellsTheTruth (key : κ) (requests : List (Request κ α)) (var : Listened κ α) : Prop :=
  (∀ (text : Text) (throws : κ → Option Thrown) (now : Listened κ α),
    (fromString same fromStr text throws now).ending = .returned false →
      (fromString same fromStr text throws now).after = now) ∧
  Chain var.value (seen key (run same fromStr requests var).1)
    (run same fromStr requests var).2.value

/-- Assumes: a listener that is registered throughout. What it is told is the truth if and only if
every call that tells it of another value comes to its end. -/
theorem listener_chain_iff {key : κ} (requests : List (Request κ α)) {var : Listened κ α}
    (hkey : key ∈ var.callbacks) :
    TellsTheTruth same fromStr key requests var ↔ AllComplete same fromStr key requests var := by
  rw [TellsTheTruth, chain_seen_iff same fromStr requests hkey]
  exact and_iff_right fun _ _ _ ↦ fromString_of_false same fromStr

end Listened

/-- A number with two listeners. -/
def twoListeners : Listened ℕ ℕ := ⟨0, [1, 2], by decide⟩

/-- Two calls, in which no listener throws. -/
theorem listener_chain_two_calls :
    Listened.TellsTheTruth (· == ·) (fun text ↦ .ok text.length) 1
      [⟨.fromString [51], fun _ ↦ none⟩, ⟨.setValue 7, fun _ ↦ none⟩] twoListeners :=
  (Listened.listener_chain_iff _ _ _ (by decide)).mpr
    ⟨fun _ _ _ _ _ _ _ ↦ rfl, fun _ _ _ _ _ _ _ ↦ rfl, trivial⟩

/-- The second listener throws: the first one was told of the value 1, and the value stays 0. -/
theorem listener_not_chain :
    (Listened.fromString (· == ·) (fun text ↦ .ok text.length) [51]
        (fun key ↦ if key = 2 then some .standard else none) twoListeners).notices =
      [⟨1, 0, 1⟩, ⟨2, 0, 1⟩] ∧
    (Listened.fromString (· == ·) (fun text ↦ .ok text.length) [51]
        (fun key ↦ if key = 2 then some .standard else none) twoListeners).after.value = 0 ∧
    ¬ Listened.TellsTheTruth (· == ·) (fun text ↦ .ok text.length) 1
      [⟨.fromString [51], fun key ↦ if key = 2 then some .standard else none⟩] twoListeners := by
  refine ⟨rfl, rfl, fun htruth ↦ ?_⟩
  have hvalue : (0 : ℕ) = 1 := htruth.2.2
  exact absurd hvalue (by decide)

/-! ### Listeners that are functions of the values -/

namespace ConfigVar

variable {τ : Type} {types : Types τ}

/-- The variable with its listeners numbered. -/
def listened (var : ConfigVar types) : Listened ℕ (types.Val var.type) where
  value := var.value
  callbacks := List.range var.listeners.length
  nodup := List.nodup_range

/-- What the listeners throw when they are told of a value. -/
def throwsOf (var : ConfigVar types) (val : types.Val var.type) (i : ℕ) : Option Thrown :=
  match var.listeners[i]? with
  | some listener => if listener var.value val then none else some .standard
  | none => none

theorem throwsOf_eq_none_iff (var : ConfigVar types) (val : types.Val var.type) :
    (∀ i ∈ List.range var.listeners.length, var.throwsOf val i = none) ↔
      (var.listeners.all fun listener ↦ listener var.value val) = true := by
  rw [List.all_eq_true]
  constructor
  · intro hnone listener hmem
    obtain ⟨i, hi, hlistener⟩ := List.getElem_of_mem hmem
    have hthrows := hnone i (List.mem_range.mpr hi)
    rw [throwsOf, List.getElem?_eq_getElem hi, hlistener] at hthrows
    dsimp only at hthrows
    by_contra hfails
    rw [if_neg hfails] at hthrows
    exact absurd hthrows (by simp)
  · intro hall i hi
    rw [List.mem_range] at hi
    rw [throwsOf, List.getElem?_eq_getElem hi]
    exact if_pos (hall _ (List.getElem_mem hi))

/-- `fromString` of a variable whose conversion throws nothing but standard exceptions. -/
theorem fromString_listened (var : ConfigVar types) (text : Text) {val : types.Val var.type}
    (hval : types.fromStr var.type text = some val) :
    var.fromString text =
      (((Listened.fromString (types.same var.type) (fun _ ↦ .ok val) text (var.throwsOf val)
          var.listened).ending = .returned true : Bool),
        { var with
          value := (Listened.fromString (types.same var.type) (fun _ ↦ .ok val) text
            (var.throwsOf val) var.listened).after.value }) := by
  have hend := Listened.notify_thrown_eq_none_iff (var.throwsOf val) var.value val
    (List.range var.listeners.length)
  rw [throwsOf_eq_none_iff] at hend
  rw [ConfigVar.fromString]
  simp only [hval]
  by_cases hsame : types.same var.type var.value val = true
  · have hset : Listened.setValue (types.same var.type) val (var.throwsOf val) var.listened =
        ⟨[], none, var.listened⟩ := if_pos hsame
    simp only [if_pos hsame, Listened.fromString, hset]
    rfl
  · have hset : Listened.setValue (types.same var.type) val (var.throwsOf val) var.listened =
        match (Listened.notify (var.throwsOf val) var.value val
          (List.range var.listeners.length)).2 with
        | some thrown => ⟨_, some thrown, var.listened⟩
        | none => ⟨_, none, { var.listened with value := val }⟩ := if_neg hsame
    by_cases hall : (var.listeners.all fun listener ↦ listener var.value val) = true
    · rw [hend.mpr hall] at hset
      simp only [if_neg hsame, if_pos hall, Listened.fromString, hset]
      rfl
    · cases hthrown : (Listened.notify (var.throwsOf val) var.value val
          (List.range var.listeners.length)).2 with
      | none => exact absurd (hend.mp hthrown) hall
      | some thrown =>
        rw [hthrown] at hset
        cases thrown with
        | standard =>
          simp only [if_neg hsame, if_neg hall, Listened.fromString, hset]
          rfl
        | foreign =>
          simp only [if_neg hsame, if_neg hall, Listened.fromString, hset]
          rfl

end ConfigVar

end Cczoe.Config
