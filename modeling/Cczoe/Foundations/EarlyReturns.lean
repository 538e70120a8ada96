import Mathlib.Logic.Basic
import Cczoe.Foundations.GuardedRuns

/-!
# Computations with early returns

The body of a function may return from the middle, and an assertion in it may fail. `Early ρ α` is a
part of such a body: it has a value, or the function has returned a result, or it is stuck.

`Meets` says that a part does not get stuck, with a condition on its value and one on an early
result; its rules follow the bind and the fold. `Follows` relates two bodies: what the first does to
an accepted end, the second does as well, with related values. Its rules have the same shape, and
what is `Rejected` is followed by anything.
-/

set_option autoImplicit false
set_option relaxedAutoImplicit false

namespace Cczoe.Foundations

/-- Why the rest of a body does not run. -/
inductive Stop (ρ : Type)
  | returned (result : ρ)
  | stuck

/-- A part of a body of a function with results in `ρ`. -/
abbrev Early (ρ : Type) := Except (Stop ρ)

variable {ρ α β : Type}

/-! ### What a part leads to -/

/-- A part is not stuck; an early result meets the first condition and a value the second. -/
def Meets (onReturn : ρ → Prop) (onValue : α → Prop) : Early ρ α → Prop
  | .ok value => onValue value
  | .error (.returned result) => onReturn result
  | .error .stuck => False

section Meeting

variable {onReturn : ρ → Prop} {onValue : α → Prop} {x : Early ρ α}

@[simp] theorem meets_ok {value : α} : Meets onReturn onValue (.ok value) ↔ onValue value := Iff.rfl

@[simp] theorem meets_returned {result : ρ} :
    Meets onReturn onValue (.error (.returned result)) ↔ onReturn result := Iff.rfl

theorem Meets.imp {stronger : α → Prop} (hx : Meets onReturn stronger x)
    (himp : ∀ value, stronger value → onValue value) : Meets onReturn onValue x := by
  cases x with
  | ok value => exact himp value hx
  | error stop =>
    cases stop with
    | returned result => exact hx
    | stuck => exact hx

theorem Meets.imp_return {stronger : ρ → Prop} (hx : Meets stronger onValue x)
    (himp : ∀ result, stronger result → onReturn result) : Meets onReturn onValue x := by
  cases x with
  | ok value => exact hx
  | error stop =>
    cases stop with
    | returned result => exact himp result hx
    | stuck => exact hx

theorem Meets.and {onReturn' : ρ → Prop} {onValue' : α → Prop} (hx : Meets onReturn onValue x)
    (hx' : Meets onReturn' onValue' x) :
    Meets onReturn (fun value ↦ onValue value ∧ onValue' value) x := by
  cases x with
  | ok value => exact ⟨hx, hx'⟩
  | error stop => cases stop <;> exact hx

/-- A part and then another. -/
theorem Meets.bind {middle : β → Prop} {y : Early ρ β} {f : β → Early ρ α}
    (hy : Meets onReturn middle y) (hf : ∀ value, middle value → Meets onReturn onValue (f value)) :
    Meets onReturn onValue (y >>= f) := by
  cases y with
  | ok value => exact hf value hy
  | error stop =>
    cases stop with
    | returned result => exact hy
    | stuck => exact hy

/-- What comes behind a part matters for the values that it has. -/
theorem Meets.bind_congr {f g : α → Early ρ β} (hx : Meets onReturn onValue x)
    (hfg : ∀ value, onValue value → f value = g value) : x >>= f = x >>= g := by
  cases x with
  | ok value => exact hfg value hx
  | error stop => rfl

end Meeting

/-! ### Two bodies side by side -/

/-- The second part does what the first does. An early result of the first counts when it is
accepted, and a stuck first part allows anything. -/
def Follows {ρ' β' : Type} (accepted : ρ → Prop) (sameResult : ρ → ρ' → Prop)
    (sameValue : β → β' → Prop) (x : Early ρ β) (y : Early ρ' β') : Prop :=
  match x with
  | .ok value => ∃ value', y = .ok value' ∧ sameValue value value'
  | .error (.returned result) =>
    accepted result → ∃ result', y = .error (.returned result') ∧ sameResult result result'
  | .error .stuck => True

section Following

variable {ρ' β' γ γ' : Type} {accepted : ρ → Prop} {sameResult : ρ → ρ' → Prop}
  {x : Early ρ β} {y : Early ρ' β'}

theorem Follows.imp {stronger weaker : β → β' → Prop}
    (hxy : Follows accepted sameResult stronger x y)
    (himp : ∀ value value', stronger value value' → weaker value value') :
    Follows accepted sameResult weaker x y := by
  cases x with
  | ok value =>
    obtain ⟨value', hy, hsame⟩ := hxy
    exact ⟨value', hy, himp value value' hsame⟩
  | error stop => cases stop <;> exact hxy

theorem Follows.imp_result {stronger : ρ → ρ' → Prop} {sameValue : β → β' → Prop}
    (hxy : Follows accepted stronger sameValue x y)
    (himp : ∀ result result', accepted result → stronger result result' →
      sameResult result result') :
    Follows accepted sameResult sameValue x y := by
  cases x with
  | ok value => exact hxy
  | error stop =>
    cases stop with
    | returned result =>
      intro haccepted
      obtain ⟨result', hy, hsame⟩ := hxy haccepted
      exact ⟨result', hy, himp result result' haccepted hsame⟩
    | stuck => trivial

/-- Nothing that the part leads to is accepted. -/
def Rejected (accepted : ρ → Prop) : Early ρ β → Prop
  | .ok _ => False
  | .error (.returned result) => ¬ accepted result
  | .error .stuck => True

theorem Rejected.follows {sameValue : β → β' → Prop} (hx : Rejected accepted x) :
    Follows accepted sameResult sameValue x y := by
  cases x with
  | ok value => exact hx.elim
  | error stop =>
    cases stop with
    | returned result => exact fun haccepted ↦ absurd haccepted hx
    | stuck => trivial

theorem Rejected.bind {f : β → Early ρ γ} (hx : Rejected accepted x) :
    Rejected accepted (x >>= f) := by
  cases x with
  | ok value => exact hx.elim
  | error stop => cases stop <;> exact hx

/-- No early result is accepted, and nothing behind a value. -/
theorem Meets.rejected {f : β → Early ρ γ} {middle : β → Prop}
    (hx : Meets (fun result ↦ ¬ accepted result) middle x)
    (hf : ∀ value, middle value → Rejected accepted (f value)) : Rejected accepted (x >>= f) := by
  cases x with
  | ok value => exact hf value hx
  | error stop =>
    cases stop with
    | returned result => exact hx
    | stuck => exact hx.elim

theorem follows_refl {accepted : ρ → Prop} (x : Early ρ β) : Follows accepted Eq Eq x x := by
  cases x with
  | ok value => exact ⟨value, rfl, rfl⟩
  | error stop =>
    cases stop with
    | returned result => exact fun _ ↦ ⟨result, rfl, rfl⟩
    | stuck => trivial

/-- What is known of the second part holds of its value. -/
theorem Follows.and_meets {sameValue : β → β' → Prop} {onReturn : ρ' → Prop} {onValue : β' → Prop}
    (hxy : Follows accepted sameResult sameValue x y) (hy : Meets onReturn onValue y) :
    Follows accepted sameResult (fun value value' ↦ sameValue value value' ∧ onValue value') x
      y := by
  cases x with
  | ok value =>
    obtain ⟨value', rfl, hsame⟩ := hxy
    exact ⟨value', rfl, hsame, hy⟩
  | error stop => cases stop <;> exact hxy

/-- Two parts side by side, and then two others. -/
theorem Follows.bind {sameValue : β → β' → Prop} {sameAfter : γ → γ' → Prop}
    {f : β → Early ρ γ} {g : β' → Early ρ' γ'} (hxy : Follows accepted sameResult sameValue x y)
    (hfg : ∀ value value', sameValue value value' →
      Follows accepted sameResult sameAfter (f value) (g value')) :
    Follows accepted sameResult sameAfter (x >>= f) (y >>= g) := by
  cases x with
  | ok value =>
    obtain ⟨value', rfl, hsame⟩ := hxy
    exact hfg value value' hsame
  | error stop =>
    cases stop with
    | returned result =>
      intro haccepted
      obtain ⟨result', rfl, hsame⟩ := hxy haccepted
      exact ⟨result', rfl, hsame⟩
    | stuck => trivial

end Following

end Cczoe.Foundations
