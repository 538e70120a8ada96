import Cczoe.Config.HandedValues

/-!
# Letter case of configuration names

`LoadFromYaml` puts the path of a leaf in lower case before it looks for the variable, and `Lookup`
registers a variable under its name as it is written. A variable in lower case is handed every leaf
whose path is its name in any letter case, one after the other, and what stays of their values is
its value then (`loadFromYaml_of_lower`); no leaf reaches a variable with an upper-case letter
(`loadFromYaml_of_upper`), and the first one makes a second variable for it.

`loadFromYaml_anyCase_iff` says exactly when the registered variable holds the value of a leaf
afterwards and no second variable was made.
-/

set_option autoImplicit false
set_option relaxedAutoImplicit false

namespace Cczoe.Config

/-! ### Letter case -/

theorem lower_lower (key : Text) : lower (lower key) = lower key := by
  rw [lower, lower, List.map_map]
  apply List.map_congr_left
  intro c _
  simp only [Function.comp_apply]
  split_ifs with hupper hagain
  · rw [UInt8.le_iff_toNat_le, UInt8.le_iff_toNat_le] at hupper hagain
    have hsum : (c + 32).toNat = c.toNat + 32 := by
      rw [UInt8.toNat_add]
      exact Nat.mod_eq_of_lt (Nat.lt_of_le_of_lt (Nat.add_le_add_right hupper.2 _) (by decide))
    rw [hsum] at hagain
    exact absurd (Nat.le_trans (Nat.add_le_add_right hupper.1 32) hagain.2) (by decide)
  · rfl
  · rfl

/-- A name in lower case. -/
def IsLower (name : Text) : Prop := lower name = name

instance (name : Text) : Decidable (IsLower name) := inferInstanceAs (Decidable (lower name = name))

section Loading

variable {τ : Type} {types : Types τ}

variable [DecidableEq τ] {emit : Node → Text} {registry : Registry types} {name : Text}

namespace Registry

/-- The texts of the leaves whose paths are a name up to letter case, in the order of the
document. -/
def spellings (emit : Node → Text) (name : Text) (doc : Node) : List Text :=
  ((parseNodes [] doc).filter fun entry ↦ lower entry.1 = lower name).map
    fun entry ↦ textOf emit entry.2

/-- The values that these leaves have for a variable. -/
def spelledValues (emit : Node → Text) (name : Text) (doc : Node) (var : ConfigVar types) :
    List (types.Val var.type) :=
  (spellings emit name doc).filterMap (types.fromStr var.type)

/-- After the document is loaded the variable of a name holds the value of a text, and no variable
was made under another spelling of the name. -/
structure FoundInAnyCase (emit : Node → Text) (registry : Registry types) (name : Text)
    (doc : Node) (text : Text) : Prop where
  holds : ∃ after, loadFromYaml emit registry doc name = some after ∧ after.Holds text
  no_second : ∀ key, lower key = lower name → registry key = none →
    loadFromYaml emit registry doc key = none

/-! ### Which variable a leaf reaches -/

/-- Assumes: a variable under a name in lower case. It is left with what stays of the values of the
leaves whose paths are its name up to letter case. -/
theorem loadFromYaml_of_lower (hname : IsLower name) {var : ConfigVar types}
    (hvar : registry name = some var) (doc : Node) :
    loadFromYaml emit registry doc name =
      some { var with value := var.settled (spelledValues emit name doc var) } := by
  have hspellings : ((parseNodes [] doc).filter fun entry ↦ lower entry.1 = name).map
      (fun entry ↦ textOf emit entry.2) = spellings emit name doc := by
    rw [spellings, hname]
  rw [loadFromYaml, foldl_loadNode_of_some emit hvar, hspellings, ConfigVar.handed_eq]
  rfl

/-- No leaf reaches a name with an upper-case letter. -/
theorem loadFromYaml_of_upper {key : Text} (hkey : ¬ IsLower key) (emit : Node → Text)
    (registry : Registry types) (doc : Node) :
    loadFromYaml emit registry doc key = registry key := by
  apply foldl_loadNode_of_absent
  intro entry _ hsame
  apply hkey
  rw [IsLower, ← hsame, lower_lower]

/-- Assumes: a leaf whose path is a name up to letter case. After it there is a variable under the
name in lower case. -/
theorem loadFromYaml_lower_isSome (emit : Node → Text) (registry : Registry types)
    {doc node : Node} {path : Text} (hleaf : (path, node) ∈ parseNodes [] doc)
    (hpath : lower path = lower name) :
    (loadFromYaml emit registry doc (lower name)).isSome := by
  cases hvar : registry (lower name) with
  | some var =>
    rw [loadFromYaml_of_lower (lower_lower name) hvar]
    rfl
  | none =>
    obtain ⟨after, hafter, _⟩ := foldl_loadNode_string emit hvar ⟨_, hleaf, hpath⟩
    exact Option.isSome_iff_exists.mpr ⟨after, hafter⟩

/-! ### Names in any letter case -/

theorem foundInAnyCase_iff_settled (emit : Node → Text) {var : ConfigVar types}
    (hvar : registry name = some var) {doc node : Node} {path : Text}
    (hleaf : (path, node) ∈ parseNodes [] doc) (hpath : lower path = lower name) :
    FoundInAnyCase emit registry name doc (textOf emit node) ↔
      IsLower name ∧ { var with
          value := var.settled (spelledValues emit name doc var) }.Holds (textOf emit node) ∨
        ¬ IsLower name ∧ var.Holds (textOf emit node) ∧ (registry (lower name)).isSome := by
  by_cases hlower : IsLower name
  · rw [or_iff_left fun hupper ↦ hupper.1 hlower, and_iff_right hlower]
    have hloaded : loadFromYaml emit registry doc name = _ :=
      loadFromYaml_of_lower hlower hvar doc
    constructor
    · rintro ⟨⟨after, hafter, hholds⟩, _⟩
      rw [hloaded] at hafter
      rw [Option.some.inj hafter]
      exact hholds
    · intro hholds
      refine ⟨⟨_, hloaded, hholds⟩, fun key hkey hnone ↦ ?_⟩
      have hupper : ¬ IsLower key := by
        intro hself
        have hsame : key = name := hself.symm.trans (hkey.trans hlower)
        rw [hsame, hvar] at hnone
        cases hnone
      exact (loadFromYaml_of_upper hupper emit registry doc).trans hnone
  · rw [or_iff_right fun hboth ↦ hlower hboth.1, and_iff_right hlower]
    have hloaded := (loadFromYaml_of_upper hlower emit registry doc).trans hvar
    constructor
    · rintro ⟨⟨after, hafter, hholds⟩, hsecond⟩
      rw [hloaded] at hafter
      refine ⟨Option.some.inj hafter ▸ hholds, ?_⟩
      by_contra hnone
      rw [Option.not_isSome_iff_eq_none] at hnone
      have hmade := loadFromYaml_lower_isSome emit registry hleaf hpath
      rw [hsecond (lower name) (lower_lower name) hnone] at hmade
      exact Bool.false_ne_true hmade
    · rintro ⟨hholds, hsome⟩
      refine ⟨⟨var, hloaded, hholds⟩, fun key hkey hnone ↦ ?_⟩
      have hupper : ¬ IsLower key := by
        intro hself
        have hsame : lower name = key := hkey.symm.trans hself
        rw [hsame, hnone] at hsome
        exact Bool.false_ne_true hsome
      exact (loadFromYaml_of_upper hupper emit registry doc).trans hnone

/-- Assumes: a registered variable, and a leaf whose path is its name up to letter case. The
variable holds the value of the leaf and no second one is made exactly when the name is in lower
case and this value stays of the values of all such leaves, or the variable has the value already
and the name in lower case is another registered variable. With a lawful `==` and no listener that
throws, the value that stays is the last one; and of a leaf that is the only one of the name it is
its own, unless a listener throws. -/
theorem loadFromYaml_anyCase_iff (emit : Node → Text) {var : ConfigVar types}
    (hvar : registry name = some var) {doc node : Node} {path : Text}
    (hleaf : (path, node) ∈ parseNodes [] doc) (hpath : lower path = lower name) :
    (FoundInAnyCase emit registry name doc (textOf emit node) ↔
      IsLower name ∧ { var with
          value := var.settled (spelledValues emit name doc var) }.Holds (textOf emit node) ∨
        ¬ IsLower name ∧ var.Holds (textOf emit node) ∧ (registry (lower name)).isSome) ∧
    (var.Unhindered → (FoundInAnyCase emit registry name doc (textOf emit node) ↔
      IsLower name ∧ types.fromStr var.type (textOf emit node) =
          some ((spelledValues emit name doc var).getLastD var.value) ∨
        ¬ IsLower name ∧ types.fromStr var.type (textOf emit node) = some var.value ∧
          (registry (lower name)).isSome)) ∧
    (var.Converts (textOf emit node) → spellings emit name doc = [textOf emit node] →
      (FoundInAnyCase emit registry name doc (textOf emit node) ↔
        IsLower name ∧ (var.Holds (textOf emit node) ∨ var.Accepts (textOf emit node)) ∨
          ¬ IsLower name ∧ var.Holds (textOf emit node) ∧ (registry (lower name)).isSome)) := by
  have hfound := foundInAnyCase_iff_settled emit hvar hleaf hpath
  refine ⟨hfound, fun hunhindered ↦ hfound.trans ?_, fun htext hsingle ↦ hfound.trans ?_⟩
  · rw [hunhindered.holds_iff, ConfigVar.settled_of_unhindered hunhindered,
      ← hunhindered.holds_iff var.value]
  · obtain ⟨val, hval⟩ := Option.isSome_iff_exists.mp htext
    rw [spelledValues, hsingle, List.filterMap_cons_some hval, List.filterMap_nil,
      ConfigVar.settled_holds_iff hval]

/-- Assumes: a new name with an upper-case letter, new in lower case too, and a leaf for it. The
variable keeps its default, and the leaf makes a string of the name in lower case. -/
theorem lookup_upper_shadowed (emit : Node → Text) (t : τ) (default : types.Val t)
    (hname : ¬ IsLower name) (hnew : registry name = none) (hlower : registry (lower name) = none)
    {doc node : Node} {path : Text} (hleaf : (path, node) ∈ parseNodes [] doc)
    (hpath : lower path = lower name) :
    let loaded := loadFromYaml emit (registry.lookup t name default).2 doc
    loaded name = some ⟨t, default, []⟩ ∧
      ∃ second, loaded (lower name) = some second ∧ second.type = types.string := by
  have hregistered : (registry.lookup t name default).2 =
      Function.update registry name (some ⟨t, default, []⟩) := by
    rw [lookup, hnew]
  have hstill : Function.update registry name (some ⟨t, default, []⟩) (lower name) = none := by
    rw [Function.update_of_ne hname, hlower]
  rw [hregistered]
  refine ⟨?_, foldl_loadNode_string emit hstill ⟨_, hleaf, hpath⟩⟩
  rw [loadFromYaml_of_upper hname, Function.update_self]

/-! ### A port in upper case -/

/-- The name `Port`. -/
def portName : Text := [80, 111, 114, 116]

/-- The document `PORT: 80`. -/
def upperDocument : Node := .map [([80, 79, 82, 84], .scalar [56, 48])]

def noVariables : Registry sampleTypes := fun _ ↦ none

/-- A registry in which one variable, of type number, was registered under a name. -/
def withPort (name : Text) : Registry sampleTypes :=
  (noVariables.lookup .number name (8080 : ℕ)).2

/-- A variable `port` takes the number that stands under `PORT`. -/
theorem lowerPort_found :
    FoundInAnyCase (fun _ ↦ []) (withPort (lower portName)) (lower portName) upperDocument
      [56, 48] :=
  (loadFromYaml_anyCase_iff (fun _ ↦ [])
    (show withPort (lower portName) (lower portName) = some ⟨.number, (8080 : ℕ), []⟩ from
      rfl)
    (show ([80, 79, 82, 84], Node.scalar [56, 48]) ∈ parseNodes [] upperDocument from
      List.mem_singleton.mpr rfl)
    (by decide)).1.mpr (Or.inl ⟨by decide, (80 : ℕ), rfl, Or.inl rfl⟩)

/-- A variable `Port` does not take the number that stands under `port`. -/
theorem upperPort_shadowed :
    (sampleTypes.fromStr .number [56, 48]).isSome ∧
      ¬ FoundInAnyCase (fun _ ↦ []) (withPort portName) portName portDocument [56, 48] := by
  refine ⟨rfl, fun hfound ↦ ?_⟩
  have hleaf : (lower portName, Node.scalar [56, 48]) ∈ parseNodes [] portDocument :=
    List.mem_singleton.mpr rfl
  have hnew : noVariables portName = none := rfl
  obtain ⟨hkept, _⟩ := lookup_upper_shadowed (fun _ ↦ []) SampleType.number (8080 : ℕ)
    (show ¬ IsLower portName by decide) hnew rfl hleaf (by decide)
  obtain ⟨after, hafter, val, hval, hcases⟩ := hfound.holds
  obtain rfl : (⟨.number, (8080 : ℕ), []⟩ : ConfigVar sampleTypes) = after :=
    Option.some.inj (hkept.symm.trans hafter)
  obtain rfl : (80 : ℕ) = val := Option.some.inj hval
  rcases hcases with hvalue | hsame
  · exact absurd (show (8080 : ℕ) = 80 from hvalue) (by decide)
  · exact absurd (show ((8080 : ℕ) == 80) = true from hsame) (by decide)

end Registry

end Loading

end Cczoe.Config
