import Mathlib.Order.Lattice

/-!
# Maps ordered through a rank

A map kept as a list of entries with strictly increasing ranks. Two keys of one rank are the same
key to the map, though they may be spelt differently: assigning to a key that is present replaces
the value and keeps the old spelling, as `operator[]` of an ordered map with a custom comparison
does. `perm_foldl_assign` says that assigning pairs with fresh keys adds just these pairs.
-/

set_option autoImplicit false
set_option relaxedAutoImplicit false

namespace Cczoe.Foundations

variable {κ ν ρ : Type} [LinearOrder ρ] {rank : κ → ρ}

/-- Entries in strictly increasing order of their ranks. -/
structure OrderedMap (κ ν : Type) {ρ : Type} [LinearOrder ρ] (rank : κ → ρ) where
  entries : List (κ × ν)
  sorted : entries.Pairwise fun a b ↦ rank a.1 < rank b.1

namespace OrderedMap

theorem ext_entries {first second : OrderedMap κ ν rank}
    (hentries : first.entries = second.entries) :
    first = second := by
  cases first
  cases second
  cases hentries
  rfl

/-- The map without entries. -/
def empty : OrderedMap κ ν rank := ⟨[], List.Pairwise.nil⟩

/-- The entries with `key` assigned: in its place when a key of its rank is there, else inserted. -/
def assignEntries (rank : κ → ρ) (key : κ) (value : ν) : List (κ × ν) → List (κ × ν)
  | [] => [(key, value)]
  | entry :: rest =>
    if rank key < rank entry.1 then (key, value) :: entry :: rest
    else if rank entry.1 < rank key then entry :: assignEntries rank key value rest
    else (entry.1, value) :: rest

/-- Every rank after an assignment is the rank of the key or was there before. -/
theorem rank_of_mem_assignEntries {key : κ} {value : ν} {entries : List (κ × ν)} {entry : κ × ν}
    (hmem : entry ∈ assignEntries rank key value entries) :
    rank entry.1 = rank key ∨ ∃ old ∈ entries, rank entry.1 = rank old.1 := by
  induction entries with
  | nil =>
    rw [assignEntries, List.mem_singleton] at hmem
    exact Or.inl (by rw [hmem])
  | cons first rest ih =>
    rw [assignEntries] at hmem
    split_ifs at hmem with hbefore hafter
    · rcases List.mem_cons.mp hmem with rfl | hold
      · exact Or.inl rfl
      · exact Or.inr ⟨entry, hold, rfl⟩
    · rcases List.mem_cons.mp hmem with rfl | hrest
      · exact Or.inr ⟨entry, List.mem_cons_self, rfl⟩
      · rcases ih hrest with hkey | ⟨old, hold, hrank⟩
        · exact Or.inl hkey
        · exact Or.inr ⟨old, List.mem_cons_of_mem _ hold, hrank⟩
    · rcases List.mem_cons.mp hmem with rfl | hrest
      · exact Or.inr ⟨first, List.mem_cons_self, rfl⟩
      · exact Or.inr ⟨entry, List.mem_cons_of_mem _ hrest, rfl⟩

theorem sorted_assignEntries (key : κ) (value : ν) {entries : List (κ × ν)}
    (hsorted : entries.Pairwise fun a b ↦ rank a.1 < rank b.1) :
    (assignEntries rank key value entries).Pairwise fun a b ↦ rank a.1 < rank b.1 := by
  induction entries with
  | nil => exact List.pairwise_singleton _ _
  | cons first rest ih =>
    obtain ⟨hfirst, hrest⟩ := List.pairwise_cons.mp hsorted
    rw [assignEntries]
    split_ifs with hbefore hafter
    · refine List.pairwise_cons.mpr ⟨?_, hsorted⟩
      intro entry hentry
      rcases List.mem_cons.mp hentry with rfl | hlater
      · exact hbefore
      · exact lt_trans hbefore (hfirst entry hlater)
    · refine List.pairwise_cons.mpr ⟨?_, ih hrest⟩
      intro entry hentry
      rcases rank_of_mem_assignEntries hentry with hkey | ⟨old, hold, hrank⟩
      · rw [hkey]
        exact hafter
      · rw [hrank]
        exact hfirst old hold
    · exact List.pairwise_cons.mpr ⟨hfirst, hrest⟩

/-- `map[key] = value`. -/
def assign (map : OrderedMap κ ν rank) (key : κ) (value : ν) : OrderedMap κ ν rank :=
  ⟨assignEntries rank key value map.entries, sorted_assignEntries key value map.sorted⟩

/-- The value stored under a key of the same rank. -/
def find (map : OrderedMap κ ν rank) (key : κ) : Option ν :=
  (map.entries.find? fun entry ↦ rank entry.1 = rank key).map Prod.snd

/-- Keys of one rank are one key. -/
theorem find_congr (map : OrderedMap κ ν rank) {first second : κ}
    (hrank : rank first = rank second) : map.find first = map.find second := by
  rw [find, find, hrank]

/-- A value just assigned is found. -/
theorem find_assign (map : OrderedMap κ ν rank) (key : κ) (value : ν) :
    (map.assign key value).find key = some value := by
  obtain ⟨entries, hsorted⟩ := map
  unfold find assign
  simp only
  clear hsorted
  induction entries with
  | nil =>
    rw [assignEntries, List.find?_cons_of_pos (by simp)]
    rfl
  | cons first rest ih =>
    rw [assignEntries]
    split_ifs with hbefore hafter
    · rw [List.find?_cons_of_pos (by simp)]
      rfl
    · rw [List.find?_cons_of_neg (by simpa using ne_of_lt hafter)]
      exact ih
    · have hsame : rank first.1 = rank key := le_antisymm (not_lt.mp hbefore) (not_lt.mp hafter)
      rw [List.find?_cons_of_pos (by simpa using hsame)]
      rfl

/-- Of two assignments to one key the second one stays. -/
theorem assign_assign (map : OrderedMap κ ν rank) (key : κ) (first second : ν) :
    (map.assign key first).assign key second = map.assign key second := by
  apply ext_entries
  obtain ⟨entries, hsorted⟩ := map
  unfold assign
  simp only
  clear hsorted
  induction entries with
  | nil =>
    simp only [assignEntries, lt_irrefl, if_false]
  | cons entry rest ih =>
    by_cases hbefore : rank key < rank entry.1
    · rw [assignEntries, if_pos hbefore, assignEntries, if_neg (lt_irrefl _), if_neg (lt_irrefl _),
        assignEntries, if_pos hbefore]
    · by_cases hafter : rank entry.1 < rank key
      · rw [assignEntries, if_neg hbefore, if_pos hafter, assignEntries, if_neg hbefore,
          if_pos hafter, ih, assignEntries, if_neg hbefore, if_pos hafter]
      · rw [assignEntries, if_neg hbefore, if_neg hafter, assignEntries, if_neg hbefore,
          if_neg hafter, assignEntries, if_neg hbefore, if_neg hafter]

/-! ### Fresh keys -/

theorem find_eq_none_iff {map : OrderedMap κ ν rank} {key : κ} :
    map.find key = none ↔ ∀ entry ∈ map.entries, rank entry.1 ≠ rank key := by
  rw [find, Option.map_eq_none_iff, List.find?_eq_none]
  simp only [decide_eq_true_eq, ne_eq]

/-- Assumes: a test for the rank of a key. The entries that pass it hold what is found under the
key. -/
theorem map_filter_rank (map : OrderedMap κ ν rank) {key : κ} {test : κ × ν → Bool}
    (htest : ∀ entry, test entry = true ↔ rank entry.1 = rank key) :
    (map.entries.filter test).map Prod.snd = (map.find key).toList := by
  obtain ⟨entries, hsorted⟩ := map
  unfold find
  simp only
  induction entries with
  | nil => rfl
  | cons first rest ih =>
    obtain ⟨hfirst, hrest⟩ := List.pairwise_cons.mp hsorted
    by_cases hsame : rank first.1 = rank key
    · have hnone : rest.filter test = [] := by
        rw [List.filter_eq_nil_iff]
        intro entry hentry hrank
        rw [htest, ← hsame] at hrank
        exact absurd hrank.symm (ne_of_lt (hfirst entry hentry))
      rw [List.filter_cons_of_pos ((htest first).mpr hsame), hnone,
        List.find?_cons_of_pos (by simpa using hsame)]
      rfl
    · rw [List.filter_cons_of_neg fun hpass ↦ hsame ((htest first).mp hpass),
        List.find?_cons_of_neg (by simpa using hsame)]
      exact ih hrest

/-- Assumes: no entry has the rank of the key. An assignment adds one entry. -/
theorem perm_assignEntries {key : κ} {value : ν} {entries : List (κ × ν)}
    (hfresh : ∀ entry ∈ entries, rank entry.1 ≠ rank key) :
    (assignEntries rank key value entries).Perm ((key, value) :: entries) := by
  induction entries with
  | nil => exact List.Perm.refl _
  | cons first rest ih =>
    obtain ⟨hfirst, hrest⟩ := List.forall_mem_cons.mp hfresh
    rw [assignEntries]
    split_ifs with hbefore hafter
    · exact List.Perm.refl _
    · exact ((ih hrest).cons first).trans (List.Perm.swap (key, value) first rest)
    · exact absurd (le_antisymm (not_lt.mp hbefore) (not_lt.mp hafter)) hfirst

/-- Assumes: pairs with other ranks than a fresh one, and not in the map. They are not in the map
with the fresh pair either. -/
theorem fresh_assign {map : OrderedMap κ ν rank} {pair : κ × ν} {pairs : List (κ × ν)}
    (hpair : ∀ other ∈ pairs, rank pair.1 ≠ rank other.1)
    (hnew : ∀ entry ∈ map.entries, rank entry.1 ≠ rank pair.1)
    (hothers : ∀ other ∈ pairs, ∀ entry ∈ map.entries, rank entry.1 ≠ rank other.1) :
    ∀ other ∈ pairs, ∀ entry ∈ (map.assign pair.1 pair.2).entries, rank entry.1 ≠ rank other.1 := by
  intro other hother entry hentry
  have hassigned : (map.assign pair.1 pair.2).entries.Perm (pair :: map.entries) :=
    perm_assignEntries hnew
  rcases List.mem_cons.mp (hassigned.mem_iff.mp hentry) with rfl | hold
  · exact hpair other hother
  · exact hothers other hother entry hold

/-- Assumes: pairs whose keys have different ranks, none of them in the map. Assigning them one
after the other adds just these entries. -/
theorem perm_foldl_assign {pairs : List (κ × ν)}
    (hdistinct : pairs.Pairwise fun a b ↦ rank a.1 ≠ rank b.1) (map : OrderedMap κ ν rank)
    (hfresh : ∀ pair ∈ pairs, ∀ entry ∈ map.entries, rank entry.1 ≠ rank pair.1) :
    (pairs.foldl (fun now pair ↦ now.assign pair.1 pair.2) map).entries.Perm
      (pairs ++ map.entries) := by
  induction pairs generalizing map with
  | nil => exact List.Perm.refl _
  | cons pair rest ih =>
    obtain ⟨hpair, hrest⟩ := List.pairwise_cons.mp hdistinct
    obtain ⟨hnew, hothers⟩ := List.forall_mem_cons.mp hfresh
    have hassigned : (map.assign pair.1 pair.2).entries.Perm (pair :: map.entries) :=
      perm_assignEntries hnew
    rw [List.foldl_cons]
    exact (ih hrest (map.assign pair.1 pair.2) (fresh_assign hpair hnew hothers)).trans
      ((hassigned.append_left rest).trans List.perm_middle)

/-! ### Insertion -/

/-- `map.insert({key, value})`: nothing changes when a key of the rank is there. -/
def insertNew (map : OrderedMap κ ν rank) (key : κ) (value : ν) : OrderedMap κ ν rank :=
  if (map.find key).isSome then map else map.assign key value

theorem insertNew_of_fresh {map : OrderedMap κ ν rank} {key : κ}
    (hfresh : ∀ entry ∈ map.entries, rank entry.1 ≠ rank key) (value : ν) :
    map.insertNew key value = map.assign key value := by
  rw [insertNew, find_eq_none_iff.mpr hfresh]
  rfl

/-- Assumes: pairs whose keys have different ranks, none of them in the map. Inserting them one
after the other is assigning them. -/
theorem foldl_insertNew_eq {pairs : List (κ × ν)}
    (hdistinct : pairs.Pairwise fun a b ↦ rank a.1 ≠ rank b.1) (map : OrderedMap κ ν rank)
    (hfresh : ∀ pair ∈ pairs, ∀ entry ∈ map.entries, rank entry.1 ≠ rank pair.1) :
    pairs.foldl (fun now pair ↦ now.insertNew pair.1 pair.2) map =
      pairs.foldl (fun now pair ↦ now.assign pair.1 pair.2) map := by
  induction pairs generalizing map with
  | nil => rfl
  | cons pair rest ih =>
    obtain ⟨hpair, hrest⟩ := List.pairwise_cons.mp hdistinct
    obtain ⟨hnew, hothers⟩ := List.forall_mem_cons.mp hfresh
    rw [List.foldl_cons, List.foldl_cons, insertNew_of_fresh hnew]
    exact ih hrest _ (fresh_assign hpair hnew hothers)

/-- The entries of a map, inserted into an empty one in any order, give the map again. -/
theorem foldl_insertNew_perm {map : OrderedMap κ ν rank} {pairs : List (κ × ν)}
    (hperm : pairs.Perm map.entries) :
    pairs.foldl (fun now pair ↦ now.insertNew pair.1 pair.2) empty = map := by
  have hdistinct : pairs.Pairwise fun a b ↦ rank a.1 ≠ rank b.1 :=
    (hperm.pairwise_iff fun hne ↦ hne.symm).mpr (map.sorted.imp ne_of_lt)
  have hfresh : ∀ pair ∈ pairs, ∀ entry ∈ (empty : OrderedMap κ ν rank).entries,
      rank entry.1 ≠ rank pair.1 := fun _ _ _ hentry ↦ absurd hentry List.not_mem_nil
  have hentries := perm_foldl_assign hdistinct empty hfresh
  rw [← foldl_insertNew_eq hdistinct empty hfresh] at hentries
  apply ext_entries
  have hback := (hentries.trans (List.Perm.of_eq (List.append_nil pairs))).trans hperm
  refine hback.eq_of_pairwise ?_ (sorted _) map.sorted
  intro first second _ _ hlt hgt
  exact absurd hgt (lt_asymm hlt)

end OrderedMap

end Cczoe.Foundations
