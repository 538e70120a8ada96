import Mathlib.Order.Lattice
import Mathlib.Data.List.TakeWhile

/-!
# Ordered sets under a comparison

A set kept as a sequence in the order of a comparison `less`, with the search, insertion and removal
of `std::set`. Positions stand for iterators, the length of the sequence for `end()`. The results
are about sequences that are strictly increasing in a rank which the comparison decides:
`Increasing.insert` and `Increasing.eraseIdx` keep the order, `Increasing.find_of_mem` says that a
search for a member finds it.
-/

set_option autoImplicit false
set_option relaxedAutoImplicit false

namespace Cczoe.Foundations

variable {α ρ : Type}

namespace OrderedSet

/-- The elements before the first one that is not less than `key`. -/
def below (less : α → α → Bool) (key : α) (elements : List α) : List α :=
  elements.takeWhile fun element ↦ less element key

/-- The elements from the first one that is not less than `key`. -/
def above (less : α → α → Bool) (key : α) (elements : List α) : List α :=
  elements.dropWhile fun element ↦ less element key

/-- `lower_bound`. -/
def lowerBound (less : α → α → Bool) (key : α) (elements : List α) : ℕ :=
  (below less key elements).length

/-- `find`: the position of an element that is neither less nor greater than `key`. -/
def find (less : α → α → Bool) (key : α) (elements : List α) : ℕ :=
  match above less key elements with
  | [] => elements.length
  | first :: _ => if less key first then elements.length else lowerBound less key elements

/-- `insert`: the sequence afterwards, the position of the element and whether it is new. -/
def insert (less : α → α → Bool) (key : α) (elements : List α) : List α × ℕ × Bool :=
  match above less key elements with
  | [] => (elements ++ [key], elements.length, true)
  | first :: rest =>
    if less key first then
      (below less key elements ++ key :: first :: rest, lowerBound less key elements, true)
    else (elements, lowerBound less key elements, false)

theorem above_cons_of_less {less : α → α → Bool} {key first : α} {rest : List α}
    (hless : less first key = true) : above less key (first :: rest) = above less key rest :=
  List.dropWhile_cons_of_pos (p := fun element ↦ less element key) hless

theorem above_cons_of_not_less {less : α → α → Bool} {key first : α} {rest : List α}
    (hless : ¬ less first key = true) : above less key (first :: rest) = first :: rest :=
  List.dropWhile_cons_of_neg (p := fun element ↦ less element key) hless

/-- An insertion adds at most the key. -/
theorem mem_of_mem_insert {less : α → α → Bool} {key element : α} {elements : List α}
    (hmem : element ∈ (insert less key elements).1) : element = key ∨ element ∈ elements := by
  rw [insert] at hmem
  have hsplit : below less key elements ++ above less key elements = elements :=
    List.takeWhile_append_dropWhile
  cases habove : above less key elements with
  | nil =>
    simp only [habove] at hmem
    rcases List.mem_append.mp hmem with hold | hnew
    · exact Or.inr hold
    · exact Or.inl (List.mem_singleton.mp hnew)
  | cons first rest =>
    simp only [habove] at hmem
    split_ifs at hmem
    · rcases List.mem_append.mp hmem with hlower | hrest
      · exact Or.inr (hsplit ▸ List.mem_append_left _ hlower)
      · rcases List.mem_cons.mp hrest with hsame | hhigher
        · exact Or.inl hsame
        · exact Or.inr (hsplit ▸ List.mem_append_right _ (habove ▸ hhigher))
    · exact Or.inr hmem

end OrderedSet

/-- A sequence with strictly increasing ranks. -/
def Increasing [LinearOrder ρ] (rank : α → ρ) (elements : List α) : Prop :=
  elements.Pairwise fun first second ↦ rank first < rank second

namespace Increasing

open OrderedSet

variable [LinearOrder ρ] {rank : α → ρ} {less : α → α → Bool} {elements : List α} {key : α}

/-- What is below a key is of lower rank. -/
theorem rank_lt_of_mem_below (hless : ∀ a b, less a b = true ↔ rank a < rank b) {element : α}
    (hmem : element ∈ below less key elements) : rank element < rank key :=
  (hless element key).mp (List.mem_takeWhile_imp (p := fun element ↦ less element key) hmem)

/-- Assumes: the sequence is increasing, and what is of lower rank than an element that passes a
test passes it too. What is left after the leading elements that pass does not pass. -/
theorem not_of_mem_dropWhile {p : α → Bool} (hinc : Increasing rank elements)
    (hlower : ∀ first ∈ elements, ∀ second ∈ elements, rank first < rank second →
      p second = true → p first = true) {element : α}
    (hmem : element ∈ elements.dropWhile p) : ¬ p element = true := by
  induction elements with
  | nil => exact absurd hmem List.not_mem_nil
  | cons first rest ih =>
    obtain ⟨hfirst, hrest⟩ := List.pairwise_cons.mp hinc
    by_cases htest : p first = true
    · rw [List.dropWhile_cons_of_pos htest] at hmem
      refine ih hrest ?_ hmem
      intro lower hin higher hout
      exact hlower lower (List.mem_cons_of_mem _ hin) higher (List.mem_cons_of_mem _ hout)
    · rw [List.dropWhile_cons_of_neg htest] at hmem
      rcases List.mem_cons.mp hmem with rfl | hlater
      · exact htest
      · intro hpass
        exact htest (hlower first List.mem_cons_self element hmem (hfirst element hlater) hpass)

/-- Assumes: the sequence is increasing. What is not below a key is of at least its rank. -/
theorem rank_le_of_mem_above (hinc : Increasing rank elements)
    (hless : ∀ a b, less a b = true ↔ rank a < rank b) {element : α}
    (hmem : element ∈ above less key elements) : rank key ≤ rank element := by
  have hnot : ¬ less element key = true := by
    refine hinc.not_of_mem_dropWhile (p := fun element ↦ less element key) ?_ hmem
    intro first _ second _ hlt hpass
    exact (hless first key).mpr (lt_trans hlt ((hless second key).mp hpass))
  exact not_lt.mp fun hlt ↦ hnot ((hless element key).mpr hlt)

theorem below_append_above : below less key elements ++ above less key elements = elements :=
  List.takeWhile_append_dropWhile

/-- Assumes: the sequence is increasing and another rank agrees with the first one on it. It is
increasing in the other rank. -/
theorem congr {other : α → ρ} (hinc : Increasing rank elements)
    (hsame : ∀ element ∈ elements, other element = rank element) : Increasing other elements := by
  refine List.Pairwise.imp_of_mem ?_ hinc
  intro first second hfirst hsecond hlt
  rw [hsame first hfirst, hsame second hsecond]
  exact hlt

/-- An increasing sequence holds an element once. -/
theorem nodup (hinc : Increasing rank elements) : elements.Nodup := by
  refine List.Pairwise.imp ?_ hinc
  intro first second hlt hsame
  rw [hsame] at hlt
  exact lt_irrefl _ hlt

/-- Assumes: the sequence is increasing and `key` is in it. It comes first of what is not below
`key`. -/
theorem above_of_mem (hinc : Increasing rank elements)
    (hless : ∀ a b, less a b = true ↔ rank a < rank b) (hmem : key ∈ elements) :
    ∃ rest, above less key elements = key :: rest := by
  induction elements with
  | nil => exact absurd hmem List.not_mem_nil
  | cons first rest ih =>
    obtain ⟨hfirst, hrest⟩ := List.pairwise_cons.mp hinc
    by_cases hbelow : less first key = true
    · have hne : key ≠ first := by
        intro hsame
        rw [hsame] at hbelow
        exact lt_irrefl _ ((hless first first).mp hbelow)
      rw [above_cons_of_less hbelow]
      exact ih hrest (List.mem_of_ne_of_mem hne hmem)
    · have hsame : key = first := by
        rcases List.mem_cons.mp hmem with hsame | hlater
        · exact hsame
        · exact absurd ((hless _ _).mpr (hfirst key hlater)) hbelow
      refine ⟨rest, ?_⟩
      rw [above_cons_of_not_less hbelow, hsame]

/-- Assumes: the sequence is increasing and `key` is in it. A search finds it: the position is that
of an element, and removing this element leaves the others in their order. -/
theorem find_of_mem (hinc : Increasing rank elements)
    (hless : ∀ a b, less a b = true ↔ rank a < rank b) (hmem : key ∈ elements) :
    find less key elements < elements.length ∧
      Increasing rank (elements.eraseIdx (find less key elements)) ∧
      ∀ element, element ∈ elements.eraseIdx (find less key elements) ↔
        element ∈ elements ∧ element ≠ key := by
  obtain ⟨rest, habove⟩ := hinc.above_of_mem hless hmem
  have hself : ¬ less key key = true := fun hlt ↦ lt_irrefl _ ((hless key key).mp hlt)
  obtain ⟨before, hbefore⟩ : ∃ before, below less key elements = before := ⟨_, rfl⟩
  have hfind : find less key elements = before.length := by
    rw [find, habove]
    simp only [if_neg hself, lowerBound, hbefore]
  have helements : elements = before ++ key :: rest := by
    rw [← habove, ← hbefore, below_append_above]
  have herase : elements.eraseIdx before.length = before ++ rest := by
    rw [helements, List.eraseIdx_append_of_length_le (Nat.le_refl _), Nat.sub_self,
      List.eraseIdx_cons_zero]
  have hkey : key ∉ before ++ rest := by
    have hnodup : (key :: (before ++ rest)).Nodup :=
      List.perm_middle.nodup_iff.mp (helements ▸ hinc.nodup)
    exact (List.nodup_cons.mp hnodup).1
  rw [hfind]
  refine ⟨?_, List.Pairwise.sublist (List.eraseIdx_sublist _ _) hinc, ?_⟩
  · rw [helements, List.length_append, List.length_cons]
    exact Nat.lt_add_of_pos_right (Nat.succ_pos _)
  · intro element
    rw [herase, helements, List.mem_append, List.mem_append, List.mem_cons]
    constructor
    · intro hin
      refine ⟨?_, fun hsame ↦ hkey (List.mem_append.mpr (hsame ▸ hin))⟩
      rcases hin with hlower | hhigher
      · exact Or.inl hlower
      · exact Or.inr (Or.inr hhigher)
    · rintro ⟨hlower | hsame | hhigher, hne⟩
      · exact Or.inl hlower
      · exact absurd hsame hne
      · exact Or.inr hhigher

/-- Assumes: the sequence is increasing and no element has the rank of `key`. It is inserted between
what is below it and what is not. -/
theorem insert_eq_of_fresh (hinc : Increasing rank elements)
    (hless : ∀ a b, less a b = true ↔ rank a < rank b)
    (hfresh : ∀ element ∈ elements, rank element ≠ rank key) :
    insert less key elements =
      (below less key elements ++ key :: above less key elements,
        lowerBound less key elements, true) := by
  rw [OrderedSet.insert]
  cases habove : above less key elements with
  | nil =>
    have hall : below less key elements = elements := by
      have happend : below less key elements ++ above less key elements = elements :=
        below_append_above
      rwa [habove, List.append_nil] at happend
    simp only [lowerBound, hall]
  | cons first rest =>
    have hfirst : first ∈ above less key elements := habove ▸ List.mem_cons_self
    have hmem : first ∈ elements := List.dropWhile_sublist _ |>.subset hfirst
    have hle : rank key ≤ rank first := hinc.rank_le_of_mem_above hless hfirst
    have hlt : less key first = true :=
      (hless _ _).mpr (lt_of_le_of_ne hle fun hsame ↦ hfresh first hmem hsame.symm)
    simp only [if_pos hlt]

/-- Assumes: the sequence is increasing and no element has the rank of `key`. An insertion takes
place, keeps the order and adds `key`. -/
theorem insert_of_fresh (hinc : Increasing rank elements)
    (hless : ∀ a b, less a b = true ↔ rank a < rank b)
    (hfresh : ∀ element ∈ elements, rank element ≠ rank key) :
    (insert less key elements).2.2 = true ∧ Increasing rank (insert less key elements).1 ∧
      (insert less key elements).1.Perm (key :: elements) := by
  rw [hinc.insert_eq_of_fresh hless hfresh]
  refine ⟨rfl, ?_, ?_⟩
  · have habove : Increasing rank (above less key elements) :=
      List.Pairwise.sublist (List.dropWhile_sublist _) hinc
    refine List.pairwise_append.mpr
      ⟨List.Pairwise.sublist (List.takeWhile_sublist _) hinc, ?_, ?_⟩
    · refine List.pairwise_cons.mpr ⟨?_, habove⟩
      intro element hmem
      have hin : element ∈ elements := List.dropWhile_sublist _ |>.subset hmem
      exact lt_of_le_of_ne (hinc.rank_le_of_mem_above hless hmem) (hfresh element hin).symm
    · intro lower hlower higher hhigher
      have hlt : rank lower < rank key := rank_lt_of_mem_below hless hlower
      rcases List.mem_cons.mp hhigher with rfl | habove
      · exact hlt
      · exact lt_of_lt_of_le hlt (hinc.rank_le_of_mem_above hless habove)
  · refine List.perm_middle.trans ?_
    rw [below_append_above]

/-- Assumes: the sequence is increasing and no element has the rank of `key`. It is inserted at the
first position exactly when every element is of higher rank. -/
theorem insert_position_eq_zero_iff (hinc : Increasing rank elements)
    (hless : ∀ a b, less a b = true ↔ rank a < rank b)
    (hfresh : ∀ element ∈ elements, rank element ≠ rank key) :
    (insert less key elements).2.1 = 0 ↔ ∀ element ∈ elements, rank key < rank element := by
  rw [hinc.insert_eq_of_fresh hless hfresh]
  show (below less key elements).length = 0 ↔ _
  rw [List.length_eq_zero_iff]
  constructor
  · intro hnone element hmem
    have hall : above less key elements = elements := by
      have hsplit : below less key elements ++ above less key elements = elements :=
        below_append_above
      rwa [hnone, List.nil_append] at hsplit
    have habove : element ∈ above less key elements := hall.symm ▸ hmem
    exact lt_of_le_of_ne (hinc.rank_le_of_mem_above hless habove) (hfresh element hmem).symm
  · intro hlowest
    refine List.eq_nil_iff_forall_not_mem.mpr fun element hmem ↦ ?_
    have hin : element ∈ elements := (List.takeWhile_sublist _).subset hmem
    exact lt_asymm (hlowest element hin) (rank_lt_of_mem_below hless hmem)

/-- Assumes: `key` is of lower rank than every element. It is inserted at the front. -/
theorem insert_front (hless : ∀ a b, less a b = true ↔ rank a < rank b)
    (hlowest : ∀ element ∈ elements, rank key < rank element) :
    insert less key elements = (key :: elements, 0, true) := by
  cases elements with
  | nil => rfl
  | cons first rest =>
    have hlt : rank key < rank first := hlowest first List.mem_cons_self
    have hnot : ¬ less first key = true := fun hfirst ↦ lt_asymm hlt ((hless _ _).mp hfirst)
    have hnone : below less key (first :: rest) = [] :=
      List.takeWhile_cons_of_neg (p := fun element ↦ less element key) hnot
    rw [OrderedSet.insert, above_cons_of_not_less hnot]
    simp only [if_pos ((hless _ _).mpr hlt), lowerBound, hnone, List.nil_append, List.length_nil]

end Increasing

end Cczoe.Foundations
