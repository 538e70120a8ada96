import Cczoe.Config.Registry

/-!
# Texts handed to a configuration variable

`LoadFromYaml` hands a variable the text of every leaf that is recorded under its name, one after
the other (`foldl_loadNode_of_some`). What comes of it is a matter of the values that the texts
convert to: the variable takes a value that differs from the one it has, unless a listener throws
(`settled`, `handed_eq`). Without a listener that throws, and for a type with a lawful `==`, the
last of them stays (`settled_of_unhindered`).
-/

set_option autoImplicit false
set_option relaxedAutoImplicit false

namespace Cczoe.Config

section Handing

variable {τ : Type} {types : Types τ}

namespace ConfigVar

/-- The text converts to the type of the variable. -/
def Converts (var : ConfigVar types) (text : Text) : Prop := (types.fromStr var.type text).isSome

/-- The variable holds the value that the text converts to, or one that compares equal to it. -/
def Holds (var : ConfigVar types) (text : Text) : Prop :=
  ∃ val, types.fromStr var.type text = some val ∧
    (var.value = val ∨ types.same var.type var.value val = true)

/-- No listener throws when the value that the text converts to is set. -/
def Accepts (var : ConfigVar types) (text : Text) : Prop :=
  ∃ val, types.fromStr var.type text = some val ∧
    (var.listeners.all fun listener ↦ listener var.value val) = true

/-- `fromString` on one text after the other. -/
def handed (var : ConfigVar types) (texts : List Text) : ConfigVar types :=
  texts.foldl (fun now text ↦ (now.fromString text).2) var

/-- The value that stays of values that are given to a variable one after the other: the variable
takes a value that differs from the one it has, unless a listener throws. -/
def settled (var : ConfigVar types) (vals : List (types.Val var.type)) : types.Val var.type :=
  vals.foldl (fun now next ↦
    if types.same var.type now next = false ∧
      (var.listeners.all fun listener ↦ listener now next) = true then next else now) var.value

/-- A variable whose type has a lawful `==` and whose listeners do not throw. -/
structure Unhindered (var : ConfigVar types) : Prop where
  same_iff : ∀ first second, types.same var.type first second = true ↔ first = second
  quiet : ∀ listener ∈ var.listeners, ∀ old new, listener old new = true

theorem settled_singleton (var : ConfigVar types) (val : types.Val var.type) :
    var.settled [val] =
      if types.same var.type var.value val = false ∧
        (var.listeners.all fun listener ↦ listener var.value val) = true then val
      else var.value := rfl

/-- Assumes: a text that does not convert. It leaves the variable alone. -/
theorem fromString_of_none {var : ConfigVar types} {text : Text}
    (htext : types.fromStr var.type text = none) : (var.fromString text).2 = var := by
  simp only [fromString, htext]

/-- Assumes: a text that converts. The variable takes its value if that differs and no listener
throws. -/
theorem fromString_of_some {var : ConfigVar types} {text : Text} {val : types.Val var.type}
    (htext : types.fromStr var.type text = some val) :
    (var.fromString text).2 = { var with value := var.settled [val] } := by
  rw [settled_singleton]
  simp only [fromString, htext]
  by_cases hsame : types.same var.type var.value val = true
  · rw [if_pos hsame, if_neg fun hboth ↦ Bool.false_ne_true (hboth.1.symm.trans hsame)]
  · rw [if_neg hsame]
    rw [Bool.not_eq_true] at hsame
    by_cases haccepts : (var.listeners.all fun listener ↦ listener var.value val) = true
    · rw [if_pos haccepts, if_pos ⟨hsame, haccepts⟩]
    · rw [if_neg haccepts, if_neg fun hboth ↦ haccepts hboth.2]

/-- The values that the texts convert to decide what a variable makes of them. -/
theorem handed_eq (var : ConfigVar types) (texts : List Text) :
    var.handed texts =
      { var with value := var.settled (texts.filterMap (types.fromStr var.type)) } := by
  induction texts generalizing var with
  | nil => rfl
  | cons text rest ih =>
    have hcons : var.handed (text :: rest) = (var.fromString text).2.handed rest := rfl
    rw [hcons]
    cases hval : types.fromStr var.type text with
    | none => rw [fromString_of_none hval, ih, List.filterMap_cons_none hval]
    | some val =>
      rw [fromString_of_some hval, ih, List.filterMap_cons_some hval]
      rfl

/-- Assumes: a text that converts. A variable holds its value after it was handed the text exactly
when it held it before or no listener throws. -/
theorem settled_holds_iff {var : ConfigVar types} {text : Text} {val : types.Val var.type}
    (htext : types.fromStr var.type text = some val) :
    { var with value := var.settled [val] }.Holds text ↔ var.Holds text ∨ var.Accepts text := by
  have hholds (value : types.Val var.type) : { var with value := value }.Holds text ↔
      value = val ∨ types.same var.type value val = true := by
    constructor
    · rintro ⟨other, hother, hcases⟩
      obtain rfl : val = other := Option.some.inj (htext.symm.trans hother)
      exact hcases
    · exact fun hcases ↦ ⟨val, htext, hcases⟩
  have haccepts : var.Accepts text ↔
      (var.listeners.all fun listener ↦ listener var.value val) = true := by
    constructor
    · rintro ⟨other, hother, hall⟩
      obtain rfl : val = other := Option.some.inj (htext.symm.trans hother)
      exact hall
    · exact fun hall ↦ ⟨val, htext, hall⟩
  rw [hholds, hholds var.value, haccepts, settled_singleton]
  split_ifs with htaken
  · exact iff_of_true (Or.inl rfl) (Or.inr htaken.2)
  · constructor
    · exact Or.inl
    · rintro (hbefore | hall)
      · exact hbefore
      · by_contra hdiffers
        rw [not_or, Bool.not_eq_true] at hdiffers
        exact htaken ⟨hdiffers.2, hall⟩

/-- Without a listener that throws the last value stays. -/
theorem settled_of_unhindered {var : ConfigVar types} (hvar : var.Unhindered)
    (vals : List (types.Val var.type)) : var.settled vals = vals.getLastD var.value := by
  have hstep (now next : types.Val var.type) :
      (if types.same var.type now next = false ∧
        (var.listeners.all fun listener ↦ listener now next) = true then next else now) = next := by
    by_cases hsame : now = next
    · subst hsame
      exact ite_self now
    · have hdiffers : types.same var.type now next = false := by
        rw [← Bool.not_eq_true, hvar.same_iff]
        exact hsame
      exact if_pos ⟨hdiffers, List.all_eq_true.mpr fun listener hmem ↦
        hvar.quiet listener hmem now next⟩
  rw [settled]
  simp only [hstep]
  generalize var.value = value
  induction vals generalizing value with
  | nil => rfl
  | cons val rest ih => rw [List.foldl_cons, ih, List.getLastD_cons]

/-- Assumes: a variable of a type with a lawful `==`. It holds the value of a text when it has
it. -/
theorem Unhindered.holds_iff {var : ConfigVar types} (hvar : var.Unhindered)
    (value : types.Val var.type) (text : Text) :
    { var with value := value }.Holds text ↔ types.fromStr var.type text = some value := by
  constructor
  · rintro ⟨val, hval, hcases⟩
    obtain rfl : value = val := hcases.elim id (hvar.same_iff value val).mp
    exact hval
  · exact fun hval ↦ ⟨value, hval, Or.inl rfl⟩

end ConfigVar

namespace Registry

variable [DecidableEq τ] {registry : Registry types} {name : Text}

/-- Assumes: no leaf for a name. Loading leaves its variable alone. -/
theorem foldl_loadNode_of_absent {emit : Node → Text} {entries : List (Text × Node)}
    (habsent : ∀ entry ∈ entries, lower entry.1 ≠ name) :
    entries.foldl (loadNode emit) registry name = registry name := by
  induction entries generalizing registry with
  | nil => rfl
  | cons entry rest ih =>
    obtain ⟨hentry, hrest⟩ := List.forall_mem_cons.mp habsent
    rw [List.foldl_cons, ih hrest, loadNode_of_ne hentry]

/-- Assumes: a registered variable. Loading hands it the text of every leaf that is recorded under
its name. -/
theorem foldl_loadNode_of_some (emit : Node → Text) {var : ConfigVar types}
    (hvar : registry name = some var) (entries : List (Text × Node)) :
    entries.foldl (loadNode emit) registry name =
      some (var.handed ((entries.filter fun entry ↦ lower entry.1 = name).map
        fun entry ↦ textOf emit entry.2)) := by
  induction entries generalizing registry var with
  | nil => exact hvar
  | cons entry rest ih =>
    rw [List.foldl_cons]
    by_cases hkey : lower entry.1 = name
    · have hloaded : loadNode emit registry entry name =
          some (var.fromString (textOf emit entry.2)).2 := by
        rw [← hkey] at hvar ⊢
        rw [loadNode_of_some hvar, Function.update_self]
      rw [ih hloaded, List.filter_cons_of_pos (by simpa using hkey)]
      rfl
    · rw [ih ((loadNode_of_ne hkey).trans hvar),
        List.filter_cons_of_neg (by simpa using hkey)]

end Registry

end Handing

end Cczoe.Config
