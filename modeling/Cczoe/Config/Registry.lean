import Mathlib.Logic.Function.Basic
import Mathlib.Data.List.Basic

/-!
# The registry of `Config.h` and `Config.cpp`

`Config` keeps configuration variables of any type under their names. `Lookup<T>` registers a
variable with a default value, or finds the one that is there and casts it to `ConfigVar<T>`;
`LoadFromYaml` hands the leaves of a document to the variables of their dotted names, and registers
a variable of type `std::string` for a name it does not know. A variable that is looked up after the
document was loaded has that type: `lookup_loadFromYaml_comm_iff` says when the order of the two
calls makes no difference.

The types are a parameter, with the conversion `LexicalCast<std::string, T>` for each of them, and
so is the text that `operator<<` makes of a node.
-/

set_option autoImplicit false
set_option relaxedAutoImplicit false

namespace Cczoe.Config

/-- A `std::string`. -/
abbrev Text := List UInt8

/-- `YAML::Node`. A key of a map is given by its `Scalar()`. -/
inductive Node
  | null
  | scalar (text : Text)
  | sequence (items : List Node)
  | map (entries : List (Text × Node))

/-- `std::transform` with `::tolower`. -/
def lower (key : Text) : Text := key.map fun c ↦ if 65 ≤ c ∧ c ≤ 90 then c + 32 else c

/-- The path of an entry of a map. -/
def path (pre key : Text) : Text := if pre.isEmpty then key else pre ++ 46 :: key

mutual

/-- `Config::ParseNodes`. -/
def parseNodes (pre : Text) : Node → List (Text × Node)
  | .map entries => parseEntries pre entries
  | .null => [(pre, .null)]
  | .scalar text => [(pre, .scalar text)]
  | .sequence items => [(pre, .sequence items)]

/-- The loop of `Config::ParseNodes` over the entries of a map. -/
def parseEntries (pre : Text) : List (Text × Node) → List (Text × Node)
  | [] => []
  | (key, node) :: rest => parseNodes (path pre key) node ++ parseEntries pre rest

end

/-- The types of configuration variables. `fromStr` is `LexicalCast<std::string, T>`, with `none`
for an exception, and `same` is `operator==`. For `std::string` the conversion returns its argument,
and strings that compare equal are equal. -/
structure Types (τ : Type) where
  Val : τ → Type
  string : τ
  ofText : Text → Val string
  fromStr : (t : τ) → Text → Option (Val t)
  same : (t : τ) → Val t → Val t → Bool
  fromStr_string : ∀ text, fromStr string text = some (ofText text)
  eq_of_same : ∀ first second, same string first second = true → first = second

variable {τ : Type} (types : Types τ)

/-- `ConfigVar<T>` with its type. A listener is called with the old and the new value, and returns
`false` when it throws. -/
structure ConfigVar where
  type : τ
  value : types.Val type
  listeners : List (types.Val type → types.Val type → Bool)

/-- `Config::GetDatas()`. -/
abbrev Registry := Text → Option (ConfigVar types)

variable {types}

namespace ConfigVar

/-- `ConfigVar::fromString`, with `setValue`. -/
def fromString (var : ConfigVar types) (text : Text) : Bool × ConfigVar types :=
  match types.fromStr var.type text with
  | none => (false, var)
  | some val =>
    if types.same var.type var.value val then (true, var)
    else if var.listeners.all fun listener ↦ listener var.value val then
      (true, { var with value := val })
    else (false, var)

/-- A string takes a value from every text. -/
theorem fromString_string (value : types.Val types.string) (text : Text) :
    ((⟨types.string, value, []⟩ : ConfigVar types).fromString text).2 =
      ⟨types.string, types.ofText text, []⟩ := by
  rw [fromString]
  simp only [types.fromStr_string]
  by_cases hsame : types.same types.string value (types.ofText text) = true
  · rw [if_pos hsame, types.eq_of_same _ _ hsame]
  · rw [if_neg hsame, if_pos List.all_nil]

/-- A variable keeps its type. -/
theorem fromString_type (var : ConfigVar types) (text : Text) :
    (var.fromString text).2.type = var.type := by
  rw [fromString]
  split
  · rfl
  · split_ifs <;> rfl

variable [DecidableEq τ]

/-- `dynamic_pointer_cast<ConfigVar<T>>`, with the value of the variable. -/
def cast (var : ConfigVar types) (t : τ) : Option (types.Val t) :=
  if htype : var.type = t then some (htype ▸ var.value) else none

/-- What a variable can be cast to. -/
theorem cast_isSome_iff (var : ConfigVar types) (t : τ) : (var.cast t).isSome ↔ var.type = t := by
  rw [cast]
  split_ifs with htype
  · exact iff_of_true rfl htype
  · exact iff_of_false Bool.false_ne_true htype

end ConfigVar

namespace Registry

variable [DecidableEq τ]

/-- `Config::Lookup<T>(name, default_value)`: the value of the variable it returns, `none` for the
null pointer, and the registry afterwards. -/
def lookup (registry : Registry types) (t : τ) (name : Text) (default : types.Val t) :
    Option (types.Val t) × Registry types :=
  match registry name with
  | some var => (var.cast t, registry)
  | none => (some default, Function.update registry name (some ⟨t, default, []⟩))

/-- The text that `LoadFromYaml` hands to a variable. -/
def textOf (emit : Node → Text) : Node → Text
  | .scalar text => text
  | node => emit node

/-- The body of the loop of `LoadFromYaml`. -/
def loadNode (emit : Node → Text) (registry : Registry types) (entry : Text × Node) :
    Registry types :=
  let key := lower entry.1
  match registry key with
  | some var => Function.update registry key (some (var.fromString (textOf emit entry.2)).2)
  | none => (registry.lookup types.string key (types.ofText (textOf emit entry.2))).2

/-- `Config::LoadFromYaml`. -/
def loadFromYaml (emit : Node → Text) (registry : Registry types) (root : Node) :
    Registry types :=
  (parseNodes [] root).foldl (loadNode emit) registry

variable {emit : Node → Text} {registry : Registry types} {name : Text}

/-- A leaf for a variable that is there. -/
theorem loadNode_of_some {entry : Text × Node} {var : ConfigVar types}
    (hvar : registry (lower entry.1) = some var) :
    loadNode emit registry entry = Function.update registry (lower entry.1)
      (some (var.fromString (textOf emit entry.2)).2) := by
  rw [loadNode, hvar]

/-- A leaf for a name without a variable. -/
theorem loadNode_of_none {entry : Text × Node} (hnone : registry (lower entry.1) = none) :
    loadNode emit registry entry = Function.update registry (lower entry.1)
      (some ⟨types.string, types.ofText (textOf emit entry.2), []⟩) := by
  rw [loadNode, hnone, lookup, hnone]

/-- A leaf for another name does not touch a variable. -/
theorem loadNode_of_ne {entry : Text × Node} (hne : lower entry.1 ≠ name) :
    loadNode emit registry entry name = registry name := by
  cases hkey : registry (lower entry.1) with
  | some var => rw [loadNode_of_some hkey, Function.update_of_ne hne.symm]
  | none => rw [loadNode_of_none hkey, Function.update_of_ne hne.symm]

/-- After a leaf for a name there is a variable of that name, of its old type or a string. -/
theorem loadNode_self (emit : Node → Text) (registry : Registry types) (entry : Text × Node) :
    ∃ var, loadNode emit registry entry (lower entry.1) = some var ∧
      var.type = (registry (lower entry.1)).elim types.string ConfigVar.type := by
  cases hkey : registry (lower entry.1) with
  | some var =>
    rw [loadNode_of_some hkey]
    exact ⟨_, Function.update_self .., var.fromString_type _⟩
  | none =>
    rw [loadNode_of_none hkey]
    exact ⟨_, Function.update_self .., rfl⟩

/-- A registered variable keeps its type when a document is loaded. -/
theorem foldl_loadNode_type (emit : Node → Text) {var : ConfigVar types}
    (hvar : registry name = some var) (entries : List (Text × Node)) :
    ∃ after, entries.foldl (loadNode emit) registry name = some after ∧ after.type = var.type := by
  induction entries generalizing registry var with
  | nil => exact ⟨var, hvar, rfl⟩
  | cons entry rest ih =>
    by_cases hkey : lower entry.1 = name
    · obtain ⟨after, hafter, htype⟩ := loadNode_self emit registry entry
      rw [hkey] at hafter htype
      rw [hvar] at htype
      obtain ⟨last, hlast, hsame⟩ := ih hafter
      exact ⟨last, hlast, hsame.trans htype⟩
    · exact ih ((loadNode_of_ne hkey).trans hvar)

/-- Assumes: a name without a variable, and a leaf for it. Loading makes a string of it. -/
theorem foldl_loadNode_string (emit : Node → Text) (hnone : registry name = none)
    {entries : List (Text × Node)} (hleaf : ∃ entry ∈ entries, lower entry.1 = name) :
    ∃ after, entries.foldl (loadNode emit) registry name = some after ∧
      after.type = types.string := by
  induction entries generalizing registry with
  | nil =>
    obtain ⟨entry, hmem, -⟩ := hleaf
    exact absurd hmem List.not_mem_nil
  | cons entry rest ih =>
    by_cases hkey : lower entry.1 = name
    · obtain ⟨var, hvar, htype⟩ := loadNode_self emit registry entry
      rw [hkey] at hvar htype
      rw [hnone] at htype
      obtain ⟨after, hafter, hsame⟩ := foldl_loadNode_type emit hvar rest
      exact ⟨after, hafter, hsame.trans htype⟩
    · have hrest := ((List.exists_mem_cons_iff _ _ _).mp hleaf).resolve_left hkey
      exact ih ((loadNode_of_ne hkey).trans hnone) hrest

/-- A leaf for another name does not depend on a variable. -/
theorem loadNode_update_of_ne {entry : Text × Node} (hne : lower entry.1 ≠ name)
    (var : Option (ConfigVar types)) :
    loadNode emit (Function.update registry name var) entry =
      Function.update (loadNode emit registry entry) name var := by
  have hkept : Function.update registry name var (lower entry.1) = registry (lower entry.1) :=
    Function.update_of_ne hne _ _
  cases hkey : registry (lower entry.1) with
  | some found =>
    rw [loadNode_of_some hkey, loadNode_of_some (hkept.trans hkey)]
    exact Function.update_comm hne.symm _ _ _
  | none =>
    rw [loadNode_of_none hkey, loadNode_of_none (hkept.trans hkey)]
    exact Function.update_comm hne.symm _ _ _

/-- Assumes: a name without a variable, and a leaf for it. The leaf makes the same string of it as
of a string that was registered before. -/
theorem loadNode_update_self {entry : Text × Node} (hnone : registry (lower entry.1) = none)
    (value : types.Val types.string) :
    loadNode emit
        (Function.update registry (lower entry.1) (some ⟨types.string, value, []⟩)) entry =
      loadNode emit registry entry := by
  rw [loadNode_of_none hnone, loadNode_of_some (Function.update_self ..),
    ConfigVar.fromString_string, Function.update_idem]

/-- Assumes: a name without a variable, and a leaf for it. Loading comes to the same with a string
registered before. -/
theorem foldl_loadNode_update (hnone : registry name = none) {entries : List (Text × Node)}
    (hleaf : ∃ entry ∈ entries, lower entry.1 = name) (value : types.Val types.string) :
    entries.foldl (loadNode emit) (Function.update registry name (some ⟨types.string, value, []⟩)) =
      entries.foldl (loadNode emit) registry := by
  induction entries generalizing registry with
  | nil =>
    obtain ⟨entry, hmem, -⟩ := hleaf
    exact absurd hmem List.not_mem_nil
  | cons entry rest ih =>
    rw [List.foldl_cons, List.foldl_cons]
    by_cases hkey : lower entry.1 = name
    · rw [← hkey] at hnone ⊢
      rw [loadNode_update_self hnone]
    · have hrest := ((List.exists_mem_cons_iff _ _ _).mp hleaf).resolve_left hkey
      rw [loadNode_update_of_ne hkey]
      exact ih ((loadNode_of_ne hkey).trans hnone) hrest

/-- The value that `Lookup<T>(name, default)` shows. -/
def visible (registry : Registry types) (t : τ) (name : Text) (default : types.Val t) :
    Option (types.Val t) :=
  (registry.lookup t name default).1

/-- Registering a variable and loading a document show one value in either order, and not the null
pointer. -/
def Commutes (emit : Node → Text) (registry : Registry types) (t : τ) (name : Text)
    (default : types.Val t) (root : Node) : Prop :=
  ∃ value, visible (loadFromYaml emit (registry.lookup t name default).2 root) t name default =
      some value ∧
    visible (loadFromYaml emit registry root) t name default = some value

/-- A variable is visible when it has the type that is asked for. -/
theorem visible_isSome_iff {var : ConfigVar types} (hvar : registry name = some var) (t : τ)
    (default : types.Val t) : (visible registry t name default).isSome ↔ var.type = t := by
  rw [visible, lookup, hvar]
  exact var.cast_isSome_iff t

/-- Assumes: a lower-case name, and a document with a leaf at that name, whatever it converts to.
Registering the variable and loading the document commute, in any registry, exactly when the name is
new and the type is `std::string`, or the name is taken by a variable of the type. -/
theorem lookup_loadFromYaml_comm_iff (emit : Node → Text) (registry : Registry types) (t : τ)
    {name : Text} (hname : lower name = name) (default : types.Val t) {root node : Node}
    (hleaf : (name, node) ∈ parseNodes [] root) :
    Commutes emit registry t name default root ↔
      (registry name).elim types.string ConfigVar.type = t := by
  have hsome : ∃ entry ∈ parseNodes [] root, lower entry.1 = name := ⟨_, hleaf, hname⟩
  cases hvar : registry name with
  | some var =>
    have hkept : (registry.lookup t name default).2 = registry := by rw [lookup, hvar]
    obtain ⟨after, hafter, htype⟩ := foldl_loadNode_type emit hvar (parseNodes [] root)
    have hvisible := visible_isSome_iff hafter t default
    rw [htype] at hvisible
    rw [Commutes, hkept, Option.elim_some, ← hvisible]
    constructor
    · rintro ⟨value, hvalue, -⟩
      exact Option.isSome_iff_exists.mpr ⟨value, hvalue⟩
    · intro hshown
      obtain ⟨value, hvalue⟩ := Option.isSome_iff_exists.mp hshown
      exact ⟨value, hvalue, hvalue⟩
  | none =>
    obtain ⟨after, hafter, htype⟩ := foldl_loadNode_string emit hvar hsome
    have hvisible := visible_isSome_iff hafter t default
    rw [htype] at hvisible
    rw [Option.elim_none, ← hvisible]
    constructor
    · rintro ⟨value, -, hvalue⟩
      exact Option.isSome_iff_exists.mpr ⟨value, hvalue⟩
    · intro hshown
      obtain ⟨value, hvalue⟩ := Option.isSome_iff_exists.mp hshown
      have hstring := hvisible.mp hshown
      subst hstring
      have hregistered : (registry.lookup types.string name default).2 =
          Function.update registry name (some ⟨types.string, default, []⟩) := by
        rw [lookup, hvar]
      refine ⟨value, ?_, hvalue⟩
      rw [hregistered, loadFromYaml, foldl_loadNode_update hvar hsome]
      exact hvalue

/-- Strings, and decimal numbers. -/
inductive SampleType
  | string
  | number
  deriving DecidableEq

/-- The values of a sample type. -/
def SampleType.Val : SampleType → Type
  | .string => Text
  | .number => ℕ

/-- The conversion of a text of decimal digits. -/
def digits (text : Text) : Option ℕ :=
  if text ≠ [] ∧ text.all fun c ↦ 48 ≤ c ∧ c ≤ 57 then
    some (text.foldl (fun value c ↦ 10 * value + (c.toNat - 48)) 0)
  else none

/-- Strings and numbers with their conversions. -/
def sampleTypes : Types SampleType where
  Val := SampleType.Val
  string := .string
  ofText text := text
  fromStr
    | .string => fun text ↦ some text
    | .number => digits
  same
    | .string => fun (first second : Text) ↦ first == second
    | .number => fun (first second : ℕ) ↦ first == second
  fromStr_string _ := rfl
  eq_of_same _ _ hsame := eq_of_beq (α := Text) hsame

/-- The document `port: 80`. -/
def portDocument : Node := .map [([112, 111, 114, 116], .scalar [56, 48])]

/-- A port that is a string is the same in both orders. -/
theorem lookup_loadFromYaml_comm_string :
    Commutes (fun _ ↦ []) (fun _ ↦ none : Registry sampleTypes) .string [112, 111, 114, 116] []
      portDocument :=
  (lookup_loadFromYaml_comm_iff (fun _ ↦ []) (fun _ ↦ none : Registry sampleTypes) .string
    (show lower [112, 111, 114, 116] = [112, 111, 114, 116] by decide) []
    (show ([112, 111, 114, 116], Node.scalar [56, 48]) ∈ parseNodes [] portDocument from
      List.mem_singleton.mpr rfl)).mpr rfl

/-- A port that is a number is not found when the document was loaded first. -/
theorem lookup_after_loadFromYaml_null :
    ¬ ∀ (τ : Type) (_ : DecidableEq τ) (types : Types τ) (emit : Node → Text)
      (registry : Registry types) (t : τ) (name : Text) (default : types.Val t) (root node : Node),
      lower name = name → registry name = none → (name, node) ∈ parseNodes [] root →
      (types.fromStr t (textOf emit node)).isSome → Commutes emit registry t name default root := by
  intro hall
  have hleaf : ([112, 111, 114, 116], Node.scalar [56, 48]) ∈ parseNodes [] portDocument :=
    List.mem_singleton.mpr rfl
  obtain ⟨value, -, hvalue⟩ := hall SampleType inferInstance sampleTypes (fun _ ↦ [])
    (fun _ ↦ none) .number [112, 111, 114, 116] (8080 : ℕ) portDocument (.scalar [56, 48])
    (by decide) rfl hleaf (by decide)
  cases hvalue

end Registry

end Cczoe.Config
