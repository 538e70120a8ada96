import Cczoe.Config.Registry
import Cczoe.Foundations.OrderedMap
import Mathlib.Algebra.Group.Int.Defs
import Mathlib.Data.Finset.Sort
import Mathlib.Data.List.Lex
import Mathlib.Data.Nat.Pairing
import Mathlib.Data.Prod.Lex
import Mathlib.Logic.Encodable.Basic
import Mathlib.Logic.Equiv.List

/-!
# The conversions of `LexicalCast.h`

`LexicalCast` turns a value into text and back. Its specialisations for containers go through a
`YAML::Node`: a container is written by loading the text of every element and emitting the node made
of them, and read by loading the text and converting the emitted text of every part. The types are
those built from integers by `vector`, `list`, `set`, `unordered_set` and by `map` and
`unordered_map` from strings.

`fromStr_toStr` says that reading undoes writing for every such type. yaml-cpp,
`boost::lexical_cast` for integers and the order of a hash table are parameters, `Library`, and
`Library.Faithful` is what is relied on of the first two.
-/

set_option autoImplicit false
set_option relaxedAutoImplicit false

namespace Cczoe.Config

open Foundations

/-! ### Types and values -/

/-- The integer types that `boost::lexical_cast` writes as numbers. -/
inductive IntType
  | int16
  | uint16
  | int32
  | uint32
  | int64
  | uint64
  deriving DecidableEq, Repr

namespace IntType

def low : IntType → ℤ
  | .int16 => -2 ^ 15
  | .int32 => -2 ^ 31
  | .int64 => -2 ^ 63
  | .uint16 | .uint32 | .uint64 => 0

def high : IntType → ℤ
  | .int16 => 2 ^ 15 - 1
  | .uint16 => 2 ^ 16 - 1
  | .int32 => 2 ^ 31 - 1
  | .uint32 => 2 ^ 32 - 1
  | .int64 => 2 ^ 63 - 1
  | .uint64 => 2 ^ 64 - 1

/-- The values of an integer type. -/
def Val (i : IntType) : Type := { n : ℤ // i.low ≤ n ∧ n ≤ i.high }

instance (i : IntType) : LinearOrder i.Val :=
  inferInstanceAs (LinearOrder { n : ℤ // i.low ≤ n ∧ n ≤ i.high })

end IntType

/-- The types built from integers; the keys of maps are strings. -/
inductive Ty
  | integer (i : IntType)
  | vector (item : Ty)
  | list (item : Ty)
  | set (item : Ty)
  | unorderedSet (item : Ty)
  | map (item : Ty)
  | unorderedMap (item : Ty)
  deriving DecidableEq, Repr

/-- `operator<` of `std::string` compares the bytes. -/
def bytesOf (key : Text) : List ℕ := key.map UInt8.toNat

theorem bytesOf_injective : Function.Injective bytesOf :=
  List.map_injective_iff.mpr fun _ _ hsame ↦ UInt8.toNat_inj.mp hsame

/-- The content of a map, in the order of its keys. -/
abbrev Table (α : Type) := OrderedMap Text α bytesOf

/-- A type with an order of its values. -/
structure OrderedType where
  carrier : Type
  order : LinearOrder carrier

namespace OrderedType

/-- Sequences are compared item by item. -/
def sequence (α : OrderedType) : OrderedType :=
  ⟨List α.carrier, @List.instLinearOrder α.carrier α.order⟩

theorem sort_injective (α : Type) [LinearOrder α] :
    Function.Injective fun elements : Finset α ↦ elements.sort := by
  intro first second hsame
  have hback := congrArg List.toFinset hsame
  rw [Finset.sort_toFinset, Finset.sort_toFinset] at hback
  exact hback

/-- Sets are compared as the sequences of their elements. -/
def set (α : OrderedType) : OrderedType :=
  letI := α.order
  ⟨Finset α.carrier, LinearOrder.lift' (fun elements ↦ elements.sort)
    (sort_injective α.carrier)⟩

theorem entries_injective (α : Type) :
    Function.Injective fun table : Table α ↦
      table.entries.map fun entry ↦ toLex (bytesOf entry.1, entry.2) := by
  intro first second hsame
  apply OrderedMap.ext_entries
  refine List.map_injective_iff.mpr ?_ hsame
  intro entry other hpair
  obtain ⟨hkey, hvalue⟩ := Prod.mk.inj (toLex_inj.mp hpair)
  exact Prod.ext (bytesOf_injective hkey) hvalue

/-- Maps are compared as the sequences of their entries. -/
def table (α : OrderedType) : OrderedType :=
  letI := α.order
  ⟨Table α.carrier, LinearOrder.lift'
    (fun table ↦ table.entries.map fun entry ↦ toLex (bytesOf entry.1, entry.2))
    (entries_injective α.carrier)⟩

end OrderedType

namespace Ty

/-- The values of a type, with `operator<`. The unordered containers have none in the source; theirs
only makes the recursion uniform. -/
def values : Ty → OrderedType
  | .integer i => ⟨i.Val, inferInstance⟩
  | .vector item | .list item => item.values.sequence
  | .set item | .unorderedSet item => item.values.set
  | .map item | .unorderedMap item => item.values.table

/-- The values of a type: a container is given by its content. -/
def Val (t : Ty) : Type := t.values.carrier

instance (t : Ty) : LinearOrder t.Val := t.values.order

end Ty

/-! ### The conversions -/

/-- What the conversions take from elsewhere. -/
structure Library where
  /-- `YAML::Load`, with `none` for an exception. -/
  load : Text → Option Node
  /-- `operator<<` of a node. -/
  emit : Node → Text
  /-- The text of `node[i]` for a map with the given entries. -/
  keyed : List (Text × Node) → ℕ → Text
  /-- `boost::lexical_cast<std::string>`. -/
  toText : (i : IntType) → i.Val → Text
  /-- `boost::lexical_cast<T>` of a string, with `none` for an exception. -/
  fromText : (i : IntType) → Text → Option i.Val
  /-- Elements in the order of their hash table. -/
  hashed : {α : Type} → List α → List α
  hashed_perm : ∀ {α : Type} (elements : List α), (hashed elements).Perm elements

section Conversions

variable (lib : Library) {α γ : Type}

/-- `node.push_back(YAML::Load(…))`. -/
def writeItem (cast : α → Option Text) (nodes : List Node) (item : α) : Option (List Node) := do
  let text ← cast item
  let node ← lib.load text
  pure (nodes ++ [node])

/-- A sequence or a set to a string, element by element. -/
def writeItems (cast : α → Option Text) (items : List α) : Option Text := do
  let nodes ← items.foldlM (writeItem lib cast) []
  pure (lib.emit (.sequence nodes))

/-- `node[key] = value` on a map. -/
def setKey (entries : List (Text × Node)) (key : Text) (value : Node) : List (Text × Node) :=
  if entries.any fun entry ↦ entry.1 = key then
    entries.map fun entry ↦ if entry.1 = key then (key, value) else entry
  else entries ++ [(key, value)]

/-- `node[it->first] = YAML::Load(…)`. -/
def writeEntry (cast : α → Option Text) (nodes : List (Text × Node)) (entry : Text × α) :
    Option (List (Text × Node)) := do
  let text ← cast entry.2
  let node ← lib.load text
  pure (setKey nodes entry.1 node)

/-- A map to a string, entry by entry. -/
def writeEntries (cast : α → Option Text) (entries : List (Text × α)) : Option Text := do
  let nodes ← entries.foldlM (writeEntry lib cast) []
  pure (lib.emit (.map nodes))

/-- The texts of `node[0]` to `node[node.size() - 1]`. -/
def itemTexts : Node → List Text
  | .sequence items => items.map lib.emit
  | .map entries => (List.range entries.length).map (lib.keyed entries)
  | .null | .scalar _ => []

/-- The text of an item is converted and the item added. -/
def readItem (cast : Text → Option α) (add : γ → α → γ) (res : γ) (text : Text) : Option γ := do
  let item ← cast text
  pure (add res item)

/-- A string to a sequence or a set, item by item. -/
def readItems (cast : Text → Option α) (add : γ → α → γ) (res : γ) (text : Text) : Option γ := do
  let node ← lib.load text
  (itemTexts lib node).foldlM (readItem cast add) res

/-- The keys and the texts of the values from `node.begin()` to `node.end()`. An item of a sequence
has no key, and `Scalar()` throws. -/
def entryTexts : Node → Option (List (Text × Text))
  | .map entries => some (entries.map fun entry ↦ (entry.1, lib.emit entry.2))
  | .sequence (_ :: _) => none
  | .sequence [] | .null | .scalar _ => some []

/-- The text of a value is converted and the entry added. -/
def readEntry (cast : Text → Option α) (add : γ → Text × α → γ) (res : γ) (entry : Text × Text) :
    Option γ := do
  let item ← cast entry.2
  pure (add res (entry.1, item))

/-- A string to a map, entry by entry. -/
def readEntries (cast : Text → Option α) (add : γ → Text × α → γ) (res : γ) (text : Text) :
    Option γ := do
  let node ← lib.load text
  let texts ← entryTexts lib node
  texts.foldlM (readEntry cast add) res

/-- `LexicalCast<T, std::string>`. -/
def toStr : (t : Ty) → t.Val → Option Text
  | .integer i => fun value ↦ some (lib.toText i value)
  | .vector item => fun (items : List item.Val) ↦ writeItems lib (toStr item) items
  | .list item => fun (items : List item.Val) ↦ writeItems lib (toStr item) items
  | .set item => fun (elements : Finset item.Val) ↦ writeItems lib (toStr item) elements.sort
  | .unorderedSet item => fun (elements : Finset item.Val) ↦
    writeItems lib (toStr item) (lib.hashed elements.sort)
  | .map item => fun (table : Table item.Val) ↦ writeEntries lib (toStr item) table.entries
  | .unorderedMap item => fun (table : Table item.Val) ↦
    writeEntries lib (toStr item) (lib.hashed table.entries)

/-- `push_back` of a vector or a list. -/
def pushBack (items : List α) (value : α) : List α := items ++ [value]

/-- `insert` of a set. -/
def insertElement [DecidableEq α] (elements : Finset α) (value : α) : Finset α :=
  insert value elements

/-- `insert` of a map. -/
def insertEntry (table : Table α) (entry : Text × α) : Table α :=
  table.insertNew entry.1 entry.2

/-- `LexicalCast<std::string, T>`. -/
def fromStr : (t : Ty) → Text → Option t.Val
  | .integer i => lib.fromText i
  | .vector item => readItems lib (fromStr item) (pushBack (α := item.Val)) ([] : List item.Val)
  | .list item => readItems lib (fromStr item) (pushBack (α := item.Val)) ([] : List item.Val)
  | .set item =>
    readItems lib (fromStr item) (insertElement (α := item.Val)) (∅ : Finset item.Val)
  | .unorderedSet item =>
    readItems lib (fromStr item) (insertElement (α := item.Val)) (∅ : Finset item.Val)
  | .map item =>
    readEntries lib (fromStr item) (insertEntry (α := item.Val)) (OrderedMap.empty : Table item.Val)
  | .unorderedMap item =>
    readEntries lib (fromStr item) (insertEntry (α := item.Val)) (OrderedMap.empty : Table item.Val)

end Conversions

/-! ### Reading undoes writing -/

/-- What is relied on of yaml-cpp and of `boost::lexical_cast`. -/
structure Library.Faithful (lib : Library) : Prop where
  /-- A node that is emitted is loaded again. -/
  load_emit : ∀ node, lib.load (lib.emit node) = some node
  /-- The text of an integer is loaded as a scalar. -/
  load_toText : ∀ (i : IntType) (n : i.Val),
    lib.load (lib.toText i n) = some (.scalar (lib.toText i n))
  /-- Such a scalar is emitted as its text. -/
  emit_toText : ∀ (i : IntType) (n : i.Val), lib.emit (.scalar (lib.toText i n)) = lib.toText i n
  /-- An integer is read from its text. -/
  fromText_toText : ∀ (i : IntType) (n : i.Val), lib.fromText i (lib.toText i n) = some n

section RoundTrip

variable {lib : Library} {α γ : Type} {write : α → Option Text} {read : Text → Option α}

/-- A value is read from its text, and the text is that of a node, so that it comes through a
container unchanged. -/
def Passes (lib : Library) (write : α → Option Text) (read : Text → Option α) (value : α) : Prop :=
  ∃ text node, write value = some text ∧ read text = some value ∧ lib.load text = some node ∧
    lib.emit node = text

/-- Assumes: items that pass. The loops over them write their nodes and read the items. -/
theorem loops_items {items : List α} (hitems : ∀ item ∈ items, Passes lib write read item)
    (add : γ → α → γ) :
    ∃ nodes : List Node,
      (∀ done, items.foldlM (writeItem lib write) done = some (done ++ nodes)) ∧
      ∀ res, (nodes.map lib.emit).foldlM (readItem read add) res = some (items.foldl add res) := by
  induction items with
  | nil => exact ⟨[], fun done ↦ by rw [List.append_nil]; rfl, fun _ ↦ rfl⟩
  | cons item rest ih =>
    obtain ⟨hitem, hrest⟩ := List.forall_mem_cons.mp hitems
    obtain ⟨text, node, hwrite, hread, hload, hemit⟩ := hitem
    obtain ⟨nodes, hwritten, hback⟩ := ih hrest
    refine ⟨node :: nodes, fun done ↦ ?_, fun res ↦ ?_⟩
    · have hstep : writeItem lib write done item = some (done ++ [node]) := by
        simp only [writeItem, hwrite, hload, Option.bind_eq_bind, Option.bind_some, Option.pure_def]
      rw [List.foldlM_cons, hstep, Option.bind_eq_bind, Option.bind_some, hwritten,
        List.append_assoc, List.singleton_append]
    · have hstep : readItem read add res text = some (add res item) := by
        simp only [readItem, hread, Option.bind_eq_bind, Option.bind_some, Option.pure_def]
      rw [List.map_cons, List.foldlM_cons, hemit, hstep]
      exact hback (add res item)

/-- Assumes: items that pass, whose additions give a value. The container passes. -/
theorem passes_items (hlib : lib.Faithful) {items : List α}
    (hitems : ∀ item ∈ items, Passes lib write read item) {add : γ → α → γ} {res value : γ}
    (hvalue : items.foldl add res = value) :
    ∃ text node, writeItems lib write items = some text ∧
      readItems lib read add res text = some value ∧ lib.load text = some node ∧
      lib.emit node = text := by
  obtain ⟨nodes, hwritten, hback⟩ := loops_items hitems add
  have hload := hlib.load_emit (.sequence nodes)
  refine ⟨lib.emit (.sequence nodes), .sequence nodes, ?_, ?_, hload, rfl⟩
  · rw [writeItems, hwritten]
    rfl
  · rw [readItems, hload, Option.bind_eq_bind, Option.bind_some]
    exact (hback res).trans (congrArg some hvalue)

/-- A new key is set at the end. -/
theorem setKey_of_fresh {entries : List (Text × Node)} {key : Text}
    (hfresh : ∀ entry ∈ entries, entry.1 ≠ key) (node : Node) :
    setKey entries key node = entries ++ [(key, node)] := by
  have hnone : ¬ (entries.any fun entry ↦ entry.1 = key) = true := by
    rw [List.any_eq_true]
    rintro ⟨entry, hentry, hkey⟩
    exact hfresh entry hentry (of_decide_eq_true hkey)
  rw [setKey, if_neg hnone]

/-- Assumes: entries with different keys, whose values pass. The loops over them write their nodes
and read the entries. -/
theorem loops_entries {entries : List (Text × α)} (hkeys : entries.Pairwise fun a b ↦ a.1 ≠ b.1)
    (hentries : ∀ entry ∈ entries, Passes lib write read entry.2) (add : γ → Text × α → γ) :
    ∃ nodes : List (Text × Node),
      (∀ done : List (Text × Node), (∀ entry ∈ entries, ∀ old ∈ done, old.1 ≠ entry.1) →
        entries.foldlM (writeEntry lib write) done = some (done ++ nodes)) ∧
      ∀ res, (nodes.map fun entry ↦ (entry.1, lib.emit entry.2)).foldlM (readEntry read add) res =
        some (entries.foldl add res) := by
  induction entries with
  | nil => exact ⟨[], fun done _ ↦ by rw [List.append_nil]; rfl, fun _ ↦ rfl⟩
  | cons entry rest ih =>
    obtain ⟨hfirst, hlater⟩ := List.pairwise_cons.mp hkeys
    obtain ⟨hentry, hrest⟩ := List.forall_mem_cons.mp hentries
    obtain ⟨text, node, hwrite, hread, hload, hemit⟩ := hentry
    obtain ⟨nodes, hwritten, hback⟩ := ih hlater hrest
    refine ⟨(entry.1, node) :: nodes, fun done hdone ↦ ?_, fun res ↦ ?_⟩
    · obtain ⟨hnew, hothers⟩ := List.forall_mem_cons.mp hdone
      have hfresh : ∀ other ∈ rest, ∀ old ∈ done ++ [(entry.1, node)], old.1 ≠ other.1 := by
        intro other hother old hold
        rcases List.mem_append.mp hold with hbefore | hadded
        · exact hothers other hother old hbefore
        · rw [List.mem_singleton.mp hadded]
          exact hfirst other hother
      have hstep : writeEntry lib write done entry = some (done ++ [(entry.1, node)]) := by
        simp only [writeEntry, hwrite, hload, Option.bind_eq_bind, Option.bind_some,
          Option.pure_def, setKey_of_fresh hnew]
      rw [List.foldlM_cons, hstep, Option.bind_eq_bind, Option.bind_some, hwritten _ hfresh,
        List.append_assoc, List.singleton_append]
    · have hstep : readEntry read add res (entry.1, text) = some (add res entry) := by
        simp only [readEntry, hread, Option.bind_eq_bind, Option.bind_some, Option.pure_def]
      rw [List.map_cons, List.foldlM_cons]
      simp only [hemit, hstep, Option.bind_eq_bind, Option.bind_some]
      exact hback (add res entry)

/-- Assumes: entries with different keys, whose values pass and whose insertions give a value. The
map passes. -/
theorem passes_entries (hlib : lib.Faithful) {entries : List (Text × α)}
    (hkeys : entries.Pairwise fun a b ↦ a.1 ≠ b.1)
    (hentries : ∀ entry ∈ entries, Passes lib write read entry.2) {add : γ → Text × α → γ}
    {res value : γ} (hvalue : entries.foldl add res = value) :
    ∃ text node, writeEntries lib write entries = some text ∧
      readEntries lib read add res text = some value ∧ lib.load text = some node ∧
      lib.emit node = text := by
  obtain ⟨nodes, hwritten, hback⟩ := loops_entries hkeys hentries add
  have hload := hlib.load_emit (.map nodes)
  refine ⟨lib.emit (.map nodes), .map nodes, ?_, ?_, hload, rfl⟩
  · rw [writeEntries, hwritten [] fun _ _ _ hold ↦ absurd hold List.not_mem_nil]
    rfl
  · rw [readEntries, hload, Option.bind_eq_bind, Option.bind_some]
    exact (hback res).trans (congrArg some hvalue)

theorem foldl_pushBack (items front : List α) : items.foldl pushBack front = front ++ items := by
  induction items generalizing front with
  | nil => rw [List.append_nil, List.foldl_nil]
  | cons item rest ih =>
    rw [List.foldl_cons, ih, pushBack, List.append_assoc, List.singleton_append]

theorem foldl_insertElement [DecidableEq α] (items : List α) (elements : Finset α) :
    items.foldl insertElement elements = elements ∪ items.toFinset := by
  induction items generalizing elements with
  | nil => rw [List.toFinset_nil, Finset.union_empty, List.foldl_nil]
  | cons item rest ih =>
    rw [List.foldl_cons, ih, insertElement, List.toFinset_cons, Finset.insert_union,
      Finset.union_insert]

/-- A set is rebuilt from its elements in any order. -/
theorem foldl_insertElement_perm [LinearOrder α] {items : List α} {elements : Finset α}
    (hperm : items.Perm elements.sort) : items.foldl insertElement ∅ = elements := by
  rw [foldl_insertElement, Finset.empty_union, List.toFinset_eq_of_perm _ _ hperm,
    Finset.sort_toFinset]

/-- Different ranks belong to different keys, in any order of the entries. -/
theorem keys_distinct {entries : List (Text × α)} {table : Table α}
    (hperm : entries.Perm table.entries) : entries.Pairwise fun a b ↦ a.1 ≠ b.1 := by
  have hsorted : table.entries.Pairwise fun a b ↦ a.1 ≠ b.1 :=
    table.sorted.imp fun hlt hsame ↦ ne_of_lt hlt (congrArg bytesOf hsame)
  exact (hperm.pairwise_iff fun hne ↦ hne.symm).mpr hsorted

/-- Every value of every type passes, by induction on the type. -/
theorem passes (hlib : lib.Faithful) (t : Ty) (value : t.Val) :
    Passes lib (toStr lib t) (fromStr lib t) value := by
  induction t with
  | integer i =>
    exact ⟨lib.toText i value, .scalar (lib.toText i value), rfl, hlib.fromText_toText i value,
      hlib.load_toText i value, hlib.emit_toText i value⟩
  | vector item ih => exact passes_items hlib (fun value _ ↦ ih value) (foldl_pushBack value [])
  | list item ih => exact passes_items hlib (fun value _ ↦ ih value) (foldl_pushBack value [])
  | set item ih =>
    exact passes_items hlib (fun value _ ↦ ih value) (foldl_insertElement_perm (List.Perm.refl _))
  | unorderedSet item ih =>
    exact passes_items hlib (fun value _ ↦ ih value)
      (foldl_insertElement_perm (lib.hashed_perm _))
  | map item ih =>
    exact passes_entries hlib (keys_distinct (List.Perm.refl _)) (fun entry _ ↦ ih entry.2)
      (OrderedMap.foldl_insertNew_perm (List.Perm.refl _))
  | unorderedMap item ih =>
    exact passes_entries hlib (keys_distinct (lib.hashed_perm _)) (fun entry _ ↦ ih entry.2)
      (OrderedMap.foldl_insertNew_perm (lib.hashed_perm _))

/-- Assumes: a library that is faithful. A value of any type built from integers is written to a
text from which it is read again. -/
theorem fromStr_toStr (hlib : lib.Faithful) (t : Ty) (value : t.Val) :
    (toStr lib t value).bind (fromStr lib t) = some value := by
  obtain ⟨text, -, hwrite, hread, -, -⟩ := passes hlib t value
  rw [hwrite, Option.bind_some, hread]

end RoundTrip

/-! ### A library -/

/-- The decimal text of a number. -/
def numeral : ℤ → Text
  | .ofNat n => (Nat.toDigits 10 n).map fun c ↦ UInt8.ofNat c.toNat
  | .negSucc n => 45 :: (Nat.toDigits 10 (n + 1)).map fun c ↦ UInt8.ofNat c.toNat

/-- The number of a text of decimal digits. -/
def magnitude (text : Text) : ℕ := Nat.ofDigitChars 10 (text.map fun c ↦ Char.ofNat c.toNat) 0

/-- The number of a text of decimal digits with an optional sign. -/
def readNumeral : Text → ℤ
  | [] => 0
  | c :: rest => if c = 45 then -(magnitude rest : ℤ) else magnitude (c :: rest)

/-- A digit as a byte. -/
theorem digit_byte {n : ℕ} {c : Char} (hc : c ∈ Nat.toDigits 10 n) :
    UInt8.ofNat c.toNat ≠ 45 ∧ Char.ofNat (UInt8.ofNat c.toNat).toNat = c := by
  have hrange : 48 ≤ c.toNat ∧ c.toNat ≤ 57 := by
    have hisDigit := Nat.isDigit_of_mem_toDigits (by decide) (by decide) hc
    simpa [Char.isDigit, UInt32.le_iff_toNat_le] using hisDigit
  have hnat : (UInt8.ofNat c.toNat).toNat = c.toNat := by
    rw [UInt8.toNat_ofNat']
    omega
  refine ⟨fun hminus ↦ ?_, ?_⟩
  · rw [hminus] at hnat
    have hvalue : (45 : UInt8).toNat = 45 := rfl
    omega
  · rw [hnat, Char.ofNat_toNat]

theorem magnitude_digits (n : ℕ) :
    magnitude ((Nat.toDigits 10 n).map fun c ↦ UInt8.ofNat c.toNat) = n := by
  have hback : ((Nat.toDigits 10 n).map fun c ↦ UInt8.ofNat c.toNat).map
      (fun c ↦ Char.ofNat c.toNat) = Nat.toDigits 10 n := by
    rw [List.map_map]
    exact (List.map_congr_left fun c hc ↦ (digit_byte hc).2).trans (List.map_id _)
  rw [magnitude, hback, Nat.ofDigitChars_ten_toDigits]

theorem readNumeral_numeral (n : ℤ) : readNumeral (numeral n) = n := by
  cases n with
  | ofNat n =>
    have hmagnitude := magnitude_digits n
    cases hdigits : Nat.toDigits 10 n with
    | nil => exact absurd hdigits Nat.toDigits_ne_nil
    | cons c rest =>
      have hc : UInt8.ofNat c.toNat ≠ 45 := (digit_byte (hdigits ▸ List.mem_cons_self)).1
      rw [hdigits, List.map_cons] at hmagnitude
      rw [numeral, hdigits, List.map_cons, readNumeral, if_neg hc, hmagnitude]
      rfl
  | negSucc n =>
    rw [numeral, readNumeral, if_pos rfl, magnitude_digits]
    rfl

mutual

/-- A number for every node. -/
def code : Node → ℕ
  | .null => Nat.pair 0 0
  | .scalar text => Nat.pair 1 (Encodable.encode (bytesOf text))
  | .sequence items => Nat.pair 2 (codeItems items)
  | .map entries => Nat.pair 3 (codeEntries entries)

def codeItems : List Node → ℕ
  | [] => 0
  | node :: rest => Nat.pair (code node) (codeItems rest) + 1

def codeEntries : List (Text × Node) → ℕ
  | [] => 0
  | (key, node) :: rest =>
    Nat.pair (Encodable.encode (bytesOf key)) (Nat.pair (code node) (codeEntries rest)) + 1

end

mutual

theorem code_injective (first second : Node) (hsame : code first = code second) :
    first = second := by
  cases first with
  | null => cases second <;> simp [code, Nat.pair_eq_pair] at hsame ⊢
  | scalar text =>
    cases second <;> simp [code, Nat.pair_eq_pair] at hsame ⊢
    exact bytesOf_injective hsame
  | sequence items =>
    cases second <;> simp [code, Nat.pair_eq_pair] at hsame ⊢
    exact codeItems_injective _ _ hsame
  | map entries =>
    cases second <;> simp [code, Nat.pair_eq_pair] at hsame ⊢
    exact codeEntries_injective _ _ hsame

theorem codeItems_injective (first second : List Node)
    (hsame : codeItems first = codeItems second) : first = second := by
  cases first with
  | nil => cases second <;> simp [codeItems] at hsame ⊢
  | cons node rest =>
    cases second <;> simp [codeItems, Nat.pair_eq_pair] at hsame ⊢
    exact ⟨code_injective _ _ hsame.1, codeItems_injective _ _ hsame.2⟩

theorem codeEntries_injective (first second : List (Text × Node))
    (hsame : codeEntries first = codeEntries second) : first = second := by
  cases first with
  | nil => cases second <;> simp [codeEntries] at hsame ⊢
  | cons entry rest =>
    obtain ⟨key, node⟩ := entry
    cases second with
    | nil => simp [codeEntries] at hsame
    | cons other more =>
      obtain ⟨otherKey, otherNode⟩ := other
      simp [codeEntries, Nat.pair_eq_pair] at hsame ⊢
      exact ⟨⟨bytesOf_injective hsame.1, code_injective _ _ hsame.2.1⟩,
        codeEntries_injective _ _ hsame.2.2⟩

end

/-- A text that is the decimal text of a number. -/
def IsNumeral (text : Text) : Prop := numeral (readNumeral text) = text

instance (text : Text) : Decidable (IsNumeral text) :=
  inferInstanceAs (Decidable (numeral (readNumeral text) = text))

theorem isNumeral_numeral (n : ℤ) : IsNumeral (numeral n) := by
  rw [IsNumeral, readNumeral_numeral]

/-- A number does not start with a zero byte. -/
theorem head_numeral (n : ℤ) : (numeral n).head? ≠ some 0 := by
  cases n with
  | ofNat n =>
    intro hhead
    obtain ⟨c, hc, hzero⟩ := List.mem_map.mp (List.mem_of_head? hhead)
    have hback := (digit_byte hc).2
    rw [hzero] at hback
    have hdigit := Nat.isDigit_of_mem_toDigits (by decide) (by decide) hc
    rw [← hback] at hdigit
    exact absurd hdigit (by decide)
  | negSucc n => exact fun hhead ↦ absurd (Option.some.inj hhead) (by decide)

/-- The nodes with a text of their own: numbers, and the map `k: 30`. -/
def plainText : Node → Option Text
  | .scalar text => if IsNumeral text then some text else none
  | .map [([107], .scalar [51, 48])] => some [107, 58, 32, 51, 48]
  | _ => none

/-- The node of such a text. -/
def plainNode (text : Text) : Node :=
  if IsNumeral text then .scalar text else .map [([107], .scalar [51, 48])]

theorem plainNode_of_plainText {node : Node} {text : Text} (htext : plainText node = some text) :
    plainNode text = node ∧ text.head? ≠ some 0 := by
  unfold plainText at htext
  split at htext
  · split_ifs at htext with hnumeral
    cases htext
    refine ⟨if_pos hnumeral, ?_⟩
    rw [← hnumeral]
    exact head_numeral _
  · cases htext
    exact ⟨if_neg (by decide), by decide⟩
  · cases htext

/-- The text of a node: its own, or one that starts with a zero byte and tells it from the rest. -/
def sampleEmit (node : Node) : Text :=
  (plainText node).getD (0 :: List.replicate (code node) 0)

theorem sampleEmit_numeral (n : ℤ) : sampleEmit (.scalar (numeral n)) = numeral n := by
  rw [sampleEmit, plainText, if_pos (isNumeral_numeral n), Option.getD_some]

/-- A node is known by its text. -/
theorem sampleEmit_injective : Function.Injective sampleEmit := by
  intro first second hsame
  unfold sampleEmit at hsame
  cases hfirst : plainText first with
  | some text =>
    obtain ⟨hnode, hhead⟩ := plainNode_of_plainText hfirst
    cases hsecond : plainText second with
    | some other =>
      rw [hfirst, hsecond, Option.getD_some, Option.getD_some] at hsame
      rw [← hnode, hsame]
      exact (plainNode_of_plainText hsecond).1
    | none =>
      rw [hfirst, hsecond, Option.getD_some, Option.getD_none] at hsame
      rw [hsame] at hhead
      exact absurd rfl hhead
  | none =>
    cases hsecond : plainText second with
    | some other =>
      rw [hfirst, hsecond, Option.getD_some, Option.getD_none] at hsame
      have hhead := (plainNode_of_plainText hsecond).2
      rw [← hsame] at hhead
      exact absurd rfl hhead
    | none =>
      rw [hfirst, hsecond, Option.getD_none, Option.getD_none] at hsame
      have hlength := congrArg List.length (List.cons.inj hsame).2
      rw [List.length_replicate, List.length_replicate] at hlength
      exact code_injective first second hlength

/-- A library that behaves like yaml-cpp and Boost on numbers and on `k: 30`. -/
noncomputable def sampleLibrary : Library where
  load := Function.partialInv sampleEmit
  emit := sampleEmit
  keyed := fun _ _ ↦ []
  toText := fun _ n ↦ numeral n.val
  fromText := fun i text ↦
    if hrange : i.low ≤ readNumeral text ∧ readNumeral text ≤ i.high then
      some ⟨readNumeral text, hrange⟩
    else none
  hashed := fun elements ↦ elements
  hashed_perm := fun elements ↦ List.Perm.refl elements

theorem sampleLibrary_faithful : sampleLibrary.Faithful where
  load_emit := fun node ↦ Function.partialInv_left sampleEmit_injective node
  load_toText := by
    intro i n
    have hemit := sampleEmit_numeral n.val
    have hload := Function.partialInv_left sampleEmit_injective (.scalar (numeral n.val))
    rw [hemit] at hload
    exact hload
  emit_toText := fun _ n ↦ sampleEmit_numeral n.val
  fromText_toText := by
    intro i n
    have hback : readNumeral (numeral n.val) = n.val := readNumeral_numeral n.val
    have hrange : i.low ≤ readNumeral (numeral n.val) ∧ readNumeral (numeral n.val) ≤ i.high := by
      rw [hback]
      exact n.property
    exact (dif_pos hrange).trans (congrArg some (Subtype.ext hback))

/-- The map `k: 30`. -/
def sampleTable : Table IntType.int32.Val :=
  OrderedMap.empty.assign [107] ⟨30, by decide⟩

/-- The map `k: 30` is written and read again. -/
theorem fromStr_toStr_sampleTable :
    (toStr sampleLibrary (.map (.integer .int32)) sampleTable).bind
      (fromStr sampleLibrary (.map (.integer .int32))) = some sampleTable :=
  fromStr_toStr sampleLibrary_faithful (.map (.integer .int32)) sampleTable

end Cczoe.Config
