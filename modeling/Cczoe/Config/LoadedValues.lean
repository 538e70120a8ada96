import Cczoe.Config.HandedValues
import Cczoe.Config.LexicalCast
import Mathlib.Data.List.Pairwise

/-!
# What a document does to the registered variables

`LoadFromYaml` takes a document apart into leaves and hands each of them to the variable of its
name. A document is a tree, `nodeAt` is the node that a sequence of keys leads to, and a name is the
keys joined by dots. `leaves` are the leaves with their keys, one for each node that is not a map.
`ParseNodes` records a leaf under its keys joined by dots, but leaves out empty keys in front of
them (`recordedName`), so that the leaves under an empty key come under a name that is not theirs.

`loadFromYaml_configures_iff` says when every registered variable ends up with what the document has
for it. A map is never handed to a variable, so a variable whose name leads to a map keeps its
value; and where a key at the top is empty, a variable is handed every leaf that is recorded under
its name.
-/

set_option autoImplicit false
set_option relaxedAutoImplicit false

namespace Cczoe.Config

/-! ### Documents -/

def Node.isMap : Node → Bool
  | .map _ => true
  | .null | .scalar _ | .sequence _ => false

/-- The node that a sequence of keys leads to. -/
def nodeAt : List Text → Node → Option Node
  | [], node => some node
  | key :: keys, .map entries => (entries.lookup key).bind (nodeAt keys)
  | _ :: _, .null | _ :: _, .scalar _ | _ :: _, .sequence _ => none

/-- Keys joined by dots. -/
def dotted (keys : List Text) : Text := [46].intercalate keys

/-- A dotted name leads to a node of the document. -/
def Names (doc : Node) (name : Text) (node : Node) : Prop :=
  ∃ keys, nodeAt keys doc = some node ∧ dotted keys = name

/-- A key in lower case and without dots. -/
def PlainKey (key : Text) : Prop := lower key = key ∧ 46 ∉ key

mutual

/-- The keys of the maps of a tree are plain, and different within a map. -/
def Plain : Node → Prop
  | .map entries => PlainEntries entries
  | .null | .scalar _ | .sequence _ => True

def PlainEntries : List (Text × Node) → Prop
  | [] => True
  | (key, node) :: rest =>
    PlainKey key ∧ (∀ other ∈ rest, other.1 ≠ key) ∧ Plain node ∧ PlainEntries rest

end

/-- No key at the top of a document is empty. -/
def NamedAtTop (doc : Node) : Prop :=
  ∀ key keys node, nodeAt (key :: keys) doc = some node → key ≠ []

/-! ### Leaves -/

mutual

/-- The leaves of a tree with their keys. -/
def leaves : Node → List (List Text × Node)
  | .map entries => leavesOfEntries entries
  | .null => [([], .null)]
  | .scalar text => [([], .scalar text)]
  | .sequence items => [([], .sequence items)]

def leavesOfEntries : List (Text × Node) → List (List Text × Node)
  | [] => []
  | (key, node) :: rest =>
    (leaves node).map (fun leaf ↦ (key :: leaf.1, leaf.2)) ++ leavesOfEntries rest

end

mutual

/-- `ParseNodes` gives the leaves with their paths. -/
theorem parseNodes_eq (pre : Text) (node : Node) :
    parseNodes pre node = (leaves node).map fun leaf ↦ (leaf.1.foldl path pre, leaf.2) := by
  cases node with
  | null => rfl
  | scalar text => rfl
  | sequence items => rfl
  | map entries => exact parseEntries_eq pre entries

theorem parseEntries_eq (pre : Text) (entries : List (Text × Node)) :
    parseEntries pre entries =
      (leavesOfEntries entries).map fun leaf ↦ (leaf.1.foldl path pre, leaf.2) := by
  cases entries with
  | nil => rfl
  | cons entry rest =>
    obtain ⟨key, node⟩ := entry
    rw [parseEntries, parseNodes_eq, parseEntries_eq, leavesOfEntries, List.map_append,
      List.map_map]
    rfl

end

theorem mem_leavesOfEntries {entries : List (Text × Node)} {leaf : List Text × Node} :
    leaf ∈ leavesOfEntries entries ↔
      ∃ key node keys, (key, node) ∈ entries ∧ (keys, leaf.2) ∈ leaves node ∧
        leaf.1 = key :: keys := by
  induction entries with
  | nil => simp [leavesOfEntries]
  | cons entry rest ih =>
    obtain ⟨key, node⟩ := entry
    rw [leavesOfEntries, List.mem_append, ih, List.mem_map]
    constructor
    · rintro (⟨inner, hinner, rfl⟩ | ⟨otherKey, other, keys, hmem, hleaf, hkeys⟩)
      · exact ⟨key, node, inner.1, List.mem_cons_self, hinner, rfl⟩
      · exact ⟨otherKey, other, keys, List.mem_cons_of_mem _ hmem, hleaf, hkeys⟩
    · rintro ⟨otherKey, other, keys, hmem, hleaf, hkeys⟩
      rcases List.mem_cons.mp hmem with hfirst | hlater
      · obtain ⟨rfl, rfl⟩ := Prod.mk.inj hfirst
        exact Or.inl ⟨(keys, leaf.2), hleaf, Prod.ext hkeys.symm rfl⟩
      · exact Or.inr ⟨otherKey, other, keys, hlater, hleaf, hkeys⟩

/-- Assumes: entries with plain keys. An entry is found by its key. -/
theorem lookup_eq_some_iff {entries : List (Text × Node)} (hplain : PlainEntries entries)
    {key : Text} {node : Node} : entries.lookup key = some node ↔ (key, node) ∈ entries := by
  induction entries with
  | nil => simp
  | cons entry rest ih =>
    obtain ⟨first, value⟩ := entry
    obtain ⟨-, hother, -, hrest⟩ := hplain
    by_cases hkey : key = first
    · subst hkey
      rw [List.lookup_cons_self]
      constructor
      · intro hfound
        rw [Option.some.inj hfound]
        exact List.mem_cons_self
      · intro hmem
        rcases List.mem_cons.mp hmem with hfirst | hlater
        · rw [(Prod.mk.inj hfirst).2]
        · exact absurd rfl (hother _ hlater)
    · rw [List.lookup_cons, beq_eq_false_iff_ne.mpr hkey, ih hrest, List.mem_cons]
      constructor
      · exact Or.inr
      · rintro (hfirst | hlater)
        · exact absurd (Prod.mk.inj hfirst).1 hkey
        · exact hlater

/-- The entries of a plain map are plain. -/
theorem PlainEntries.of_mem {entries : List (Text × Node)} (hplain : PlainEntries entries)
    {key : Text} {node : Node} (hmem : (key, node) ∈ entries) : PlainKey key ∧ Plain node := by
  induction entries with
  | nil => exact absurd hmem List.not_mem_nil
  | cons entry rest ih =>
    obtain ⟨first, value⟩ := entry
    obtain ⟨hkey, -, hvalue, hrest⟩ := hplain
    rcases List.mem_cons.mp hmem with hfirst | hlater
    · obtain ⟨rfl, rfl⟩ := Prod.mk.inj hfirst
      exact ⟨hkey, hvalue⟩
    · exact ih hrest hlater

/-- Assumes: a plain tree. Its leaves are the nodes that are not maps. -/
theorem mem_leaves_iff {node : Node} (hplain : Plain node) {keys : List Text} {leaf : Node} :
    (keys, leaf) ∈ leaves node ↔ nodeAt keys node = some leaf ∧ leaf.isMap = false := by
  induction keys generalizing node with
  | nil =>
    have hsingle : ∀ other : Node, other.isMap = false →
        (([], leaf) ∈ [(([] : List Text), other)] ↔
          some other = some leaf ∧ leaf.isMap = false) := by
      intro other hother
      rw [List.mem_singleton, Prod.mk.injEq, Option.some.injEq]
      constructor
      · rintro ⟨-, rfl⟩
        exact ⟨rfl, hother⟩
      · rintro ⟨rfl, -⟩
        exact ⟨rfl, rfl⟩
    cases node with
    | null => exact hsingle .null rfl
    | scalar text => exact hsingle (.scalar text) rfl
    | sequence items => exact hsingle (.sequence items) rfl
    | map entries =>
      constructor
      · intro hmem
        obtain ⟨_, _, _, -, -, hkeys⟩ := mem_leavesOfEntries.mp hmem
        exact absurd hkeys.symm (List.cons_ne_nil _ _)
      · rintro ⟨hsame, hmap⟩
        rw [← Option.some.inj hsame] at hmap
        exact Bool.noConfusion hmap
  | cons key keys ih =>
    have hsingle : ∀ other : Node, (key :: keys, leaf) ∉ [(([] : List Text), other)] := by
      intro other hmem
      exact absurd (Prod.mk.inj (List.mem_singleton.mp hmem)).1 (List.cons_ne_nil _ _)
    cases node with
    | null => exact iff_of_false (hsingle .null) fun hat ↦ by cases hat.1
    | scalar text => exact iff_of_false (hsingle (.scalar text)) fun hat ↦ by cases hat.1
    | sequence items => exact iff_of_false (hsingle (.sequence items)) fun hat ↦ by cases hat.1
    | map entries =>
      rw [leaves, mem_leavesOfEntries, nodeAt, Option.bind_eq_some_iff]
      constructor
      · rintro ⟨found, node, inner, hmem, hleaf, hkeys⟩
        obtain ⟨rfl, rfl⟩ := List.cons.inj hkeys
        obtain ⟨hat, hmap⟩ := (ih (hplain.of_mem hmem).2).mp hleaf
        exact ⟨⟨node, (lookup_eq_some_iff hplain).mpr hmem, hat⟩, hmap⟩
      · rintro ⟨⟨node, hfound, hat⟩, hmap⟩
        have hmem := (lookup_eq_some_iff hplain).mp hfound
        exact ⟨key, node, keys, hmem, (ih (hplain.of_mem hmem).2).mpr ⟨hat, hmap⟩, rfl⟩

mutual

/-- Assumes: a plain tree. Its leaves have different keys. -/
theorem leaves_pairwise (node : Node) (hplain : Plain node) :
    (leaves node).Pairwise fun a b ↦ a.1 ≠ b.1 := by
  cases node with
  | null => exact List.pairwise_singleton _ _
  | scalar text => exact List.pairwise_singleton _ _
  | sequence items => exact List.pairwise_singleton _ _
  | map entries => exact leavesOfEntries_pairwise entries hplain

theorem leavesOfEntries_pairwise (entries : List (Text × Node)) (hplain : PlainEntries entries) :
    (leavesOfEntries entries).Pairwise fun a b ↦ a.1 ≠ b.1 := by
  cases entries with
  | nil => exact List.Pairwise.nil
  | cons entry rest =>
    obtain ⟨key, node⟩ := entry
    obtain ⟨-, hother, hnode, hrest⟩ := hplain
    rw [leavesOfEntries, List.pairwise_append]
    refine ⟨?_, leavesOfEntries_pairwise rest hrest, ?_⟩
    · rw [List.pairwise_map]
      exact (leaves_pairwise node hnode).imp fun hne hsame ↦ hne (List.cons.inj hsame).2
    · intro first hfirst second hsecond hsame
      obtain ⟨inner, -, rfl⟩ := List.mem_map.mp hfirst
      obtain ⟨other, value, keys, hmem, -, hkeys⟩ := mem_leavesOfEntries.mp hsecond
      exact hother (other, value) hmem (List.cons.inj (hsame.trans hkeys)).1.symm

end

/-- Assumes: a plain tree. The keys that lead to a node are plain. -/
theorem plainKey_of_nodeAt {node target : Node} (hplain : Plain node) {keys : List Text}
    (hat : nodeAt keys node = some target) : ∀ key ∈ keys, PlainKey key := by
  induction keys generalizing node with
  | nil => exact fun _ hkey ↦ absurd hkey List.not_mem_nil
  | cons key keys ih =>
    cases node with
    | null => cases hat
    | scalar text => cases hat
    | sequence items => cases hat
    | map entries =>
      obtain ⟨inner, hfound, hrest⟩ := Option.bind_eq_some_iff.mp hat
      obtain ⟨hkey, hinner⟩ := hplain.of_mem ((lookup_eq_some_iff hplain).mp hfound)
      exact List.forall_mem_cons.mpr ⟨hkey, ih hinner hrest⟩

/-! ### Names -/

/-- Behind a first key, `ParseNodes` joins the keys by dots. -/
theorem foldl_path_of_ne {pre : Text} (hpre : pre ≠ []) (keys : List Text) :
    keys.foldl path pre = dotted (pre :: keys) := by
  induction keys generalizing pre with
  | nil => exact List.intercalate_singleton.symm
  | cons key keys ih =>
    have hpath : path pre key = pre ++ 46 :: key := by
      rw [path, if_neg (by simpa using hpre)]
    have hjoin : dotted ((pre ++ 46 :: key) :: keys) = pre ++ 46 :: dotted (key :: keys) := by
      cases keys with
      | nil => simp only [dotted, List.intercalate_singleton]
      | cons next more =>
        simp only [dotted, List.intercalate_cons_cons, List.append_assoc, List.cons_append]
    rw [List.foldl_cons, hpath, ih (by simp), hjoin, dotted, dotted, List.intercalate_cons_cons,
      List.append_assoc, List.singleton_append]

/-- The name that `ParseNodes` records for keys: empty keys in front of them are left out. -/
def recordedName (keys : List Text) : Text := dotted (keys.dropWhile List.isEmpty)

theorem foldl_path_nil (keys : List Text) : keys.foldl path [] = recordedName keys := by
  induction keys with
  | nil => rfl
  | cons key rest ih =>
    cases key with
    | nil => exact ih
    | cons c more => exact foldl_path_of_ne (List.cons_ne_nil c more) rest

/-- Assumes: no empty key at the top of a document. Its nodes are recorded under their names. -/
theorem recordedName_eq {doc node : Node} (htop : NamedAtTop doc) {keys : List Text}
    (hat : nodeAt keys doc = some node) : recordedName keys = dotted keys := by
  cases keys with
  | nil => rfl
  | cons key rest =>
    have hkey : ¬ key.isEmpty = true := by simpa using htop key rest node hat
    rw [recordedName, List.dropWhile_cons_of_neg hkey]

/-- Assumes: keys without dots. No name that begins with a dot is recorded for them. -/
theorem recordedName_ne_dot {keys : List Text} (hkeys : ∀ key ∈ keys, 46 ∉ key) (rest : Text) :
    recordedName keys ≠ 46 :: rest := by
  induction keys with
  | nil => exact (List.cons_ne_nil _ _).symm
  | cons key others ih =>
    obtain ⟨hkey, hothers⟩ := List.forall_mem_cons.mp hkeys
    cases key with
    | nil => exact ih hothers
    | cons c more =>
      intro hsame
      rw [recordedName, List.dropWhile_cons_of_neg Bool.false_ne_true, dotted,
        List.intercalate_cons_cons_left] at hsame
      exact hkey ((List.cons.inj hsame).1 ▸ List.mem_cons_self)

/-- Assumes: two sequences of keys that lead to nodes of a plain document and have one name. They
are the same. -/
theorem keys_eq_of_dotted {doc first second : Node} (hdoc : Plain doc) (htop : NamedAtTop doc)
    {keys others : List Text} (hkeys : nodeAt keys doc = some first)
    (hothers : nodeAt others doc = some second) (hsame : dotted keys = dotted others) :
    keys = others := by
  have hempty : ∀ (key : Text) (rest : List Text) (node : Node),
      nodeAt (key :: rest) doc = some node → dotted (key :: rest) ≠ [] := by
    intro key rest node hat hnil
    have hne : key ≠ [] := htop key rest node hat
    obtain ⟨c, more, rfl⟩ := List.exists_cons_of_ne_nil hne
    rw [dotted, List.intercalate_cons_cons_left] at hnil
    exact absurd hnil (List.cons_ne_nil _ _)
  have hdots : ∀ (keys : List Text) (node : Node), nodeAt keys doc = some node →
      ∀ key ∈ keys, 46 ∉ key :=
    fun keys node hat key hkey ↦ (plainKey_of_nodeAt hdoc hat key hkey).2
  cases keys with
  | nil =>
    cases others with
    | nil => rfl
    | cons other rest => exact absurd hsame.symm (hempty other rest second hothers)
  | cons key rest =>
    cases others with
    | nil => exact absurd hsame (hempty key rest first hkeys)
    | cons other more =>
      have hfirst := List.splitOn_intercalate 46 (hdots _ first hkeys) (List.cons_ne_nil key rest)
      have hsecond := List.splitOn_intercalate 46 (hdots _ second hothers)
        (List.cons_ne_nil other more)
      rw [← hfirst, ← hsecond]
      exact congrArg (List.splitOn 46) hsame

/-- Assumes: a plain document without an empty key at the top. A name leads to one node at most. -/
theorem Names.unique {doc first second : Node} (hdoc : Plain doc) (htop : NamedAtTop doc)
    {name : Text} (hfirst : Names doc name first) (hsecond : Names doc name second) :
    first = second := by
  obtain ⟨keys, hkeys, hname⟩ := hfirst
  obtain ⟨others, hothers, hsame⟩ := hsecond
  rw [keys_eq_of_dotted hdoc htop hkeys hothers (hname.trans hsame.symm), hothers] at hkeys
  exact (Option.some.inj hkeys).symm

theorem lower_append (first second : Text) :
    lower (first ++ second) = lower first ++ lower second :=
  List.map_append

/-- Assumes: keys in lower case. Their dotted name is in lower case. -/
theorem lower_dotted {keys : List Text} (hkeys : ∀ key ∈ keys, lower key = key) :
    lower (dotted keys) = dotted keys := by
  induction keys with
  | nil => rfl
  | cons key keys ih =>
    obtain ⟨hkey, hrest⟩ := List.forall_mem_cons.mp hkeys
    cases keys with
    | nil =>
      rw [dotted, List.intercalate_singleton]
      exact hkey
    | cons next more =>
      rw [dotted, List.intercalate_cons_cons, lower_append, lower_append, hkey]
      have htail : lower ([46].intercalate (next :: more)) = [46].intercalate (next :: more) :=
        ih hrest
      rw [htail]
      rfl

/-! ### The leaves of a name -/

/-- The texts of the leaves that are recorded under a name, in the order of the document. -/
def textsAt (emit : Node → Text) (name : Text) (doc : Node) : List Text :=
  ((leaves doc).filter fun leaf ↦ recordedName leaf.1 = name).map
    fun leaf ↦ Registry.textOf emit leaf.2

/-- Assumes: pairs with different first components. One of them is found by its own. -/
theorem filter_fst_eq_singleton {pairs : List (List Text × Node)}
    (hpairs : pairs.Pairwise fun a b ↦ a.1 ≠ b.1) {pair : List Text × Node} (hpair : pair ∈ pairs) :
    (pairs.filter fun other ↦ other.1 = pair.1) = [pair] := by
  induction pairs with
  | nil => exact absurd hpair List.not_mem_nil
  | cons first rest ih =>
    obtain ⟨hfirst, hrest⟩ := List.pairwise_cons.mp hpairs
    rcases List.mem_cons.mp hpair with rfl | hlater
    · rw [List.filter_cons_of_pos (by simp), List.filter_eq_nil_iff.mpr]
      intro other hother
      simpa using (hfirst other hother).symm
    · rw [List.filter_cons_of_neg (by simpa using hfirst pair hlater), ih hrest hlater]

section Recorded

variable {doc node : Node} {name : Text} (emit : Node → Text)

/-- Assumes: a plain document without an empty key at the top, and a name of a node that is not a
map. This node alone is recorded under it. -/
theorem textsAt_of_leaf (hdoc : Plain doc) (htop : NamedAtTop doc) (hname : Names doc name node)
    (hmap : node.isMap = false) : textsAt emit name doc = [Registry.textOf emit node] := by
  obtain ⟨keys, hat, rfl⟩ := hname
  have hleaf : (keys, node) ∈ leaves doc := (mem_leaves_iff hdoc).mpr ⟨hat, hmap⟩
  have hfilter : ((leaves doc).filter fun leaf ↦ recordedName leaf.1 = dotted keys) =
      (leaves doc).filter fun leaf ↦ leaf.1 = (keys, node).1 := by
    apply List.filter_congr
    intro leaf hother
    obtain ⟨hother, -⟩ := (mem_leaves_iff hdoc).mp hother
    rw [recordedName_eq htop hother, decide_eq_decide]
    exact ⟨keys_eq_of_dotted hdoc htop hother hat, congrArg dotted⟩
  rw [textsAt, hfilter, filter_fst_eq_singleton (leaves_pairwise doc hdoc) hleaf,
    List.map_singleton]

/-- Assumes: a plain document without an empty key at the top, and a name that leads to no node but
maps. No leaf is recorded under it. -/
theorem textsAt_of_no_leaf (hdoc : Plain doc) (htop : NamedAtTop doc)
    (hleaf : ∀ node, Names doc name node → node.isMap = true) : textsAt emit name doc = [] := by
  rw [textsAt, List.map_eq_nil_iff, List.filter_eq_nil_iff]
  rintro ⟨keys, node⟩ hmem hsame
  obtain ⟨hat, hmap⟩ := (mem_leaves_iff hdoc).mp hmem
  have hname : Names doc name node :=
    ⟨keys, hat, (recordedName_eq htop hat).symm.trans (of_decide_eq_true hsame)⟩
  rw [hleaf node hname] at hmap
  exact Bool.noConfusion hmap

/-- No leaf is recorded under a name that begins with a dot, as the names of the nodes under an
empty key do. -/
theorem textsAt_dot (hdoc : Plain doc) (rest : Text) : textsAt emit (46 :: rest) doc = [] := by
  rw [textsAt, List.map_eq_nil_iff, List.filter_eq_nil_iff]
  rintro ⟨keys, node⟩ hmem hsame
  obtain ⟨hat, -⟩ := (mem_leaves_iff hdoc).mp hmem
  exact recordedName_ne_dot (fun key hkey ↦ (plainKey_of_nodeAt hdoc hat key hkey).2) rest
    (of_decide_eq_true hsame)

end Recorded

/-- The leaves of `p: 8` and of `p: 9` under an empty key come under one name. -/
example : textsAt (fun _ ↦ []) [112]
    (.map [([112], .scalar [56]), ([], .map [([112], .scalar [57])])]) = [[56], [57]] := by
  decide

/-! ### Loading -/

section Loading

variable {τ : Type} {types : Types τ}

/-- The values that the leaves recorded under a name have for its variable. -/
def ConfigVar.offered (emit : Node → Text) (name : Text) (doc : Node) (var : ConfigVar types) :
    List (types.Val var.type) :=
  (textsAt emit name doc).filterMap (types.fromStr var.type)

/-- The values of the leaves that are recorded under its name leave a variable with the value of
the node it names, and unchanged when it names none. -/
structure ConfigVar.Settles (emit : Node → Text) (name : Text) (doc : Node)
    (var : ConfigVar types) : Prop where
  named : ∀ node, Names doc name node → var.Converts (Registry.textOf emit node) →
    { var with value := var.settled (var.offered emit name doc) }.Holds (Registry.textOf emit node)
  absent : (∀ node, ¬ Names doc name node) → var.settled (var.offered emit name doc) = var.value

variable [DecidableEq τ] {emit : Node → Text} {registry : Registry types} {name : Text}

namespace Registry

/-- Assumes: a plain document. A variable is left with what stays of the values of the leaves that
are recorded under its name. -/
theorem loadFromYaml_of_plain {doc : Node} (hdoc : Plain doc) {var : ConfigVar types}
    (hvar : registry name = some var) :
    loadFromYaml emit registry doc name =
      some { var with value := var.settled (var.offered emit name doc) } := by
  have hrecorded : ((parseNodes [] doc).filter fun entry ↦ lower entry.1 = name).map
      (fun entry ↦ textOf emit entry.2) = textsAt emit name doc := by
    rw [parseNodes_eq, List.filter_map, List.map_map, textsAt]
    congr 1
    apply List.filter_congr
    intro leaf hleaf
    obtain ⟨hat, -⟩ := (mem_leaves_iff hdoc).mp hleaf
    have hlower : lower (recordedName leaf.1) = recordedName leaf.1 := lower_dotted fun key hkey ↦
      (plainKey_of_nodeAt hdoc hat key ((List.dropWhile_sublist _).mem hkey)).1
    rw [Function.comp_apply, foldl_path_nil, hlower]
  rw [loadFromYaml, foldl_loadNode_of_some emit hvar, hrecorded, ConfigVar.handed_eq]
  rfl

/-- Every registered variable whose name leads to a node that converts to its type holds the
converted value after the document is loaded, and one whose name leads nowhere is unchanged. -/
structure Configures (emit : Node → Text) (registry : Registry types) (doc : Node) : Prop where
  named : ∀ name var node, registry name = some var → Names doc name node →
    var.Converts (textOf emit node) →
    ∃ after, loadFromYaml emit registry doc name = some after ∧ after.Holds (textOf emit node)
  absent : ∀ name var, registry name = some var → (∀ node, ¬ Names doc name node) →
    loadFromYaml emit registry doc name = some var

theorem configures_iff_settles {doc : Node} (hdoc : Plain doc) (emit : Node → Text)
    (registry : Registry types) :
    Configures emit registry doc ↔
      ∀ name var, registry name = some var → var.Settles emit name doc := by
  constructor
  · rintro ⟨hnamed, habsent⟩ name var hvar
    have hloaded : loadFromYaml emit registry doc name = _ := loadFromYaml_of_plain hdoc hvar
    refine ⟨fun node hname htext ↦ ?_, fun hnone ↦ ?_⟩
    · obtain ⟨after, hafter, hholds⟩ := hnamed name var node hvar hname htext
      rw [hloaded] at hafter
      obtain rfl := Option.some.inj hafter
      exact hholds
    · have hkept := Option.some.inj (hloaded.symm.trans (habsent name var hvar hnone))
      exact eq_of_heq (ConfigVar.mk.inj hkept).2.1
  · intro hsettles
    refine ⟨fun name var node hvar hname htext ↦ ?_, fun name var hvar hnone ↦ ?_⟩
    · exact ⟨_, loadFromYaml_of_plain hdoc hvar, (hsettles name var hvar).named node hname htext⟩
    · rw [loadFromYaml_of_plain hdoc hvar, (hsettles name var hvar).absent hnone]

omit [DecidableEq τ] in
/-- Assumes: a plain document without an empty key at the top. A variable is settled when it holds
the value of its node already, or the node is not a map and no listener throws. -/
theorem settles_iff_of_namedAtTop {doc : Node} (hdoc : Plain doc) (htop : NamedAtTop doc)
    (emit : Node → Text) (name : Text) (var : ConfigVar types) :
    var.Settles emit name doc ↔ ∀ node, Names doc name node → var.Converts (textOf emit node) →
      var.Holds (textOf emit node) ∨ node.isMap = false ∧ var.Accepts (textOf emit node) := by
  have hnone (hleaf : ∀ node, Names doc name node → node.isMap = true) :
      var.settled (var.offered emit name doc) = var.value := by
    rw [ConfigVar.offered, textsAt_of_no_leaf emit hdoc htop hleaf]
    rfl
  have hholds (node : Node) (hname : Names doc name node)
      (htext : var.Converts (textOf emit node)) :
      { var with value := var.settled (var.offered emit name doc) }.Holds (textOf emit node) ↔
        var.Holds (textOf emit node) ∨ node.isMap = false ∧ var.Accepts (textOf emit node) := by
    cases hmap : node.isMap with
    | false =>
      obtain ⟨val, hval⟩ := Option.isSome_iff_exists.mp htext
      rw [ConfigVar.offered, textsAt_of_leaf emit hdoc htop hname hmap,
        List.filterMap_cons_some hval, List.filterMap_nil, ConfigVar.settled_holds_iff hval,
        and_iff_right rfl]
    | true =>
      rw [hnone fun other hother ↦ hname.unique hdoc htop hother ▸ hmap,
        or_iff_left fun hboth ↦ Bool.noConfusion hboth.1]
  constructor
  · intro hsettles node hname htext
    exact (hholds node hname htext).mp (hsettles.named node hname htext)
  · intro hcondition
    refine ⟨fun node hname htext ↦ (hholds node hname htext).mpr (hcondition node hname htext),
      fun habsent ↦ hnone fun node hname ↦ absurd hname (habsent node)⟩

omit [DecidableEq τ] in
/-- Assumes: a variable with a lawful `==` and without a listener that throws. It is settled when
the last of the values of its leaves is that of its node, and its own value when there is none. -/
theorem settles_iff_of_unhindered {var : ConfigVar types} (hvar : var.Unhindered)
    (emit : Node → Text) (name : Text) (doc : Node) :
    var.Settles emit name doc ↔
      (∀ node, Names doc name node → var.Converts (textOf emit node) →
        types.fromStr var.type (textOf emit node) =
          some ((var.offered emit name doc).getLastD var.value)) ∧
      ((∀ node, ¬ Names doc name node) →
        (var.offered emit name doc).getLastD var.value = var.value) := by
  rw [← ConfigVar.settled_of_unhindered hvar]
  constructor
  · rintro ⟨hnamed, habsent⟩
    exact ⟨fun node hname htext ↦ (hvar.holds_iff _ _).mp (hnamed node hname htext), habsent⟩
  · rintro ⟨hnamed, habsent⟩
    exact ⟨fun node hname htext ↦ (hvar.holds_iff _ _).mpr (hnamed node hname htext), habsent⟩

/-- Assumes: a document with plain keys. It configures the registered variables exactly when each of
them is settled by the leaves that are recorded under its name. Where no key at the top is empty,
this is when each variable whose name leads to a node of its type holds the value already, or the
node is not a map and no listener throws; and where all types have a lawful `==` and no listener
throws, when the last of the values of its leaves is the one that the variable should have. -/
theorem loadFromYaml_configures_iff {doc : Node} (hdoc : Plain doc) (emit : Node → Text)
    (registry : Registry types) :
    (Configures emit registry doc ↔
      ∀ name var, registry name = some var → var.Settles emit name doc) ∧
    (NamedAtTop doc → (Configures emit registry doc ↔
      ∀ name var node, registry name = some var → Names doc name node →
        var.Converts (textOf emit node) →
        var.Holds (textOf emit node) ∨ node.isMap = false ∧ var.Accepts (textOf emit node))) ∧
    ((∀ name var, registry name = some var → var.Unhindered) → (Configures emit registry doc ↔
      ∀ name var, registry name = some var →
        (∀ node, Names doc name node → var.Converts (textOf emit node) →
          types.fromStr var.type (textOf emit node) =
            some ((var.offered emit name doc).getLastD var.value)) ∧
        ((∀ node, ¬ Names doc name node) →
          (var.offered emit name doc).getLastD var.value = var.value))) := by
  have hsettles := configures_iff_settles hdoc emit registry
  refine ⟨hsettles, fun htop ↦ hsettles.trans ?_, fun hvars ↦ hsettles.trans ?_⟩
  · simp only [settles_iff_of_namedAtTop hdoc htop]
    exact ⟨fun hall name var node hvar ↦ hall name var hvar node,
      fun hall name var hvar node ↦ hall name var node hvar⟩
  · refine forall_congr' fun name ↦ forall_congr' fun var ↦ forall_congr' fun hvar ↦ ?_
    exact settles_iff_of_unhindered (hvars name var hvar) emit name doc

end Registry

end Loading

/-! ### A map variable -/

/-- Strings, and the types that `LexicalCast` builds from integers. -/
inductive VarType
  | string
  | cast (t : Ty)
  deriving DecidableEq, Repr

def VarType.Val : VarType → Type
  | .string => Text
  | .cast t => t.Val

/-- The types of `LexicalCast.h`. -/
def castTypes (lib : Library) : Types VarType where
  Val := VarType.Val
  string := .string
  ofText text := text
  fromStr
    | .string => fun text ↦ some text
    | .cast t => fromStr lib t
  same
    | .string => fun (first second : Text) ↦ first == second
    | .cast t => fun (first second : t.Val) ↦ decide (first = second)
  fromStr_string _ := rfl
  eq_of_same _ _ hsame := eq_of_beq (α := Text) hsame

theorem castTypes_same_iff (lib : Library) (t : Ty) (first second : t.Val) :
    (castTypes lib).same (.cast t) first second = true ↔ first = second :=
  decide_eq_true_iff

/-- The document `m: 30`. -/
def numberDocument : Node := .map [([109], .scalar [51, 48])]

/-- A variable `m` of type `int`. -/
def numberVariable : ConfigVar (castTypes sampleLibrary) :=
  ⟨.cast (.integer .int32), (⟨0, by decide⟩ : IntType.int32.Val), []⟩

theorem numberDocument_plain : Plain numberDocument :=
  ⟨⟨by decide, by decide⟩, fun _ hother ↦ absurd hother List.not_mem_nil, trivial, trivial⟩

theorem numberDocument_namedAtTop : NamedAtTop numberDocument := by
  rintro key keys node hat rfl
  cases hat

/-- The number is loaded. -/
theorem numberDocument_configures :
    Registry.Configures sampleLibrary.emit
      (Function.update (fun _ ↦ none) [109] (some numberVariable)) numberDocument := by
  refine ((Registry.loadFromYaml_configures_iff numberDocument_plain sampleLibrary.emit
    (Function.update (fun _ ↦ none) [109] (some numberVariable))).2.1
    numberDocument_namedAtTop).mpr ?_
  intro name var node hvar hname htext
  have hm : name = [109] := by
    by_contra hne
    rw [Function.update_of_ne hne] at hvar
    cases hvar
  subst hm
  rw [Function.update_self] at hvar
  cases hvar
  have hnode : node = .scalar [51, 48] :=
    hname.unique numberDocument_plain numberDocument_namedAtTop ⟨[[109]], rfl, rfl⟩
  subst hnode
  obtain ⟨val, hval⟩ := Option.isSome_iff_exists.mp htext
  exact Or.inr ⟨rfl, val, hval, rfl⟩

/-- The document `m:` with the map `k: 30`. -/
def mapDocument : Node := .map [([109], .map [([107], .scalar [51, 48])])]

/-- A variable `m` of type `std::map<std::string, int>`. -/
def mapVariable : ConfigVar (castTypes sampleLibrary) :=
  ⟨.cast (.map (.integer .int32)), (Foundations.OrderedMap.empty : Table IntType.int32.Val), []⟩

theorem mapDocument_plain : Plain mapDocument :=
  ⟨⟨by decide, by decide⟩, fun _ hother ↦ absurd hother List.not_mem_nil,
    ⟨⟨by decide, by decide⟩, fun _ hother ↦ absurd hother List.not_mem_nil, trivial, trivial⟩,
    trivial⟩

theorem mapDocument_namedAtTop : NamedAtTop mapDocument := by
  rintro key keys node hat rfl
  cases hat

/-- The map `k: 30` is read from its text. -/
theorem fromStr_sampleMap :
    fromStr sampleLibrary (.map (.integer .int32))
      (sampleLibrary.emit (.map [([107], .scalar [51, 48])])) = some sampleTable := by
  simp only [fromStr, readEntries, sampleLibrary_faithful.load_emit, Option.bind_eq_bind,
    Option.bind_some]
  rfl

/-- The map variable converts the map and does not get it. -/
theorem mapDocument_not_configures : Plain mapDocument ∧ NamedAtTop mapDocument ∧
    mapVariable.Converts (sampleLibrary.emit (.map [([107], .scalar [51, 48])])) ∧
    ¬ Registry.Configures sampleLibrary.emit
      (Function.update (fun _ ↦ none) [109] (some mapVariable)) mapDocument := by
  have htext : mapVariable.Converts (sampleLibrary.emit (.map [([107], .scalar [51, 48])])) :=
    Option.isSome_iff_exists.mpr ⟨_, fromStr_sampleMap⟩
  refine ⟨mapDocument_plain, mapDocument_namedAtTop, htext, fun hconfigures ↦ ?_⟩
  have hname : Names mapDocument [109] (.map [([107], .scalar [51, 48])]) :=
    ⟨[[109]], rfl, rfl⟩
  have hsettles := (Registry.configures_iff_settles mapDocument_plain sampleLibrary.emit _).mp
    hconfigures [109] mapVariable (Function.update_self ..)
  have hcondition := (Registry.settles_iff_of_namedAtTop mapDocument_plain mapDocument_namedAtTop
    sampleLibrary.emit [109] mapVariable).mp hsettles _ hname htext
  obtain ⟨val, hval, hholds⟩ := hcondition.resolve_right fun hboth ↦ Bool.noConfusion hboth.1
  -- The converted value is `k: 30`, the variable still has the empty map.
  have htable : val = sampleTable := Option.some.inj (hval.symm.trans fromStr_sampleMap)
  have hempty : (Foundations.OrderedMap.empty : Table IntType.int32.Val) ≠ sampleTable := by
    intro hsame
    exact absurd (congrArg Foundations.OrderedMap.entries hsame).symm (List.cons_ne_nil _ _)
  subst htable
  rcases hholds with hvalue | hsame
  · exact hempty hvalue
  · exact hempty ((castTypes_same_iff sampleLibrary (.map (.integer .int32)) _ _).mp hsame)

end Cczoe.Config
