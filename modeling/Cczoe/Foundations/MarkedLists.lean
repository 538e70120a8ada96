import Mathlib.Data.List.TakeWhile

/-!
# Lists cut at a mark

A scanner walks along a list to the first occurrence of a mark. `upTo` is what it passes over and
`fromMark` what it has before it then: nothing, where the mark does not occur
(`fromMark_eq_nil_iff`), and otherwise the mark and the rest (`fromMark_eq_cons`).
`upTo_append_cons` and `fromMark_append_cons` go the other way, from a list put together around the
mark.

A scanner that keeps an index has `l.drop i` before it. `drop_succ_of_drop` and `drop_add_of_drop`
move it on.
-/

set_option autoImplicit false
set_option relaxedAutoImplicit false

namespace Cczoe.Foundations

variable {α : Type}

section Marks

variable [DecidableEq α]

/-- What comes before the first `mark`. -/
def upTo (mark : α) (l : List α) : List α := l.takeWhile (· ≠ mark)

/-- The first `mark` and what follows it. -/
def fromMark (mark : α) (l : List α) : List α := l.dropWhile (· ≠ mark)

variable {mark : α} {l before after : List α}

theorem upTo_cons (mark c : α) (l : List α) :
    upTo mark (c :: l) = if c = mark then [] else c :: upTo mark l := by
  by_cases hc : c = mark
  · simp [upTo, hc]
  · simp [upTo, hc]

@[simp] theorem upTo_append_fromMark (mark : α) (l : List α) : upTo mark l ++ fromMark mark l = l :=
  List.takeWhile_append_dropWhile

theorem notMem_upTo (mark : α) (l : List α) : mark ∉ upTo mark l := by
  intro hmem
  simpa using List.mem_takeWhile_imp hmem

theorem fromMark_eq_nil_iff : fromMark mark l = [] ↔ mark ∉ l := by
  rw [fromMark, List.dropWhile_eq_nil_iff]
  constructor
  · intro hall hmem
    simpa using hall mark hmem
  · intro hnot c hc
    simpa using ne_of_mem_of_not_mem hc hnot

theorem fromMark_eq_cons {c : α} (h : fromMark mark l = c :: after) : c = mark := by
  have hhead := List.head?_dropWhile_not (· ≠ mark) l
  rw [← fromMark, h] at hhead
  simpa using hhead

theorem take_length_upTo (mark : α) (l : List α) : l.take (upTo mark l).length = upTo mark l :=
  (List.prefix_iff_eq_take.mp (List.takeWhile_prefix _)).symm

theorem upTo_of_notMem (h : mark ∉ l) : upTo mark l = l := by
  have hsplit := upTo_append_fromMark mark l
  rwa [fromMark_eq_nil_iff.mpr h, List.append_nil] at hsplit

theorem upTo_append_cons (h : mark ∉ before) : upTo mark (before ++ mark :: after) = before := by
  rw [upTo, List.takeWhile_append_of_pos, List.takeWhile_cons_of_neg, List.append_nil]
  · simp
  · intro c hc
    simpa using ne_of_mem_of_not_mem hc h

theorem fromMark_append_cons (h : mark ∉ before) :
    fromMark mark (before ++ mark :: after) = mark :: after := by
  have hsplit := upTo_append_fromMark mark (before ++ mark :: after)
  rw [upTo_append_cons h] at hsplit
  exact List.append_cancel_left hsplit

/-- Where the mark occurs, the list is put together around its first occurrence. -/
theorem exists_eq_append_cons (h : mark ∈ l) :
    ∃ before after, mark ∉ before ∧ l = before ++ mark :: after := by
  cases hrest : fromMark mark l with
  | nil => exact absurd h (fromMark_eq_nil_iff.mp hrest)
  | cons c after =>
    have hc := fromMark_eq_cons hrest
    subst hc
    exact ⟨upTo c l, after, notMem_upTo c l, by rw [← hrest, upTo_append_fromMark]⟩

end Marks

variable {l before rest : List α} {i : ℕ} {c : α}

theorem lt_length_of_drop (h : l.drop i = c :: rest) : i < l.length := by
  by_contra hle
  rw [List.drop_of_length_le (by omega)] at h
  cases h

theorem getElem?_of_drop (h : l.drop i = rest) : l[i]? = rest.head? := by
  rw [← h, List.head?_drop]

theorem drop_succ_of_drop (h : l.drop i = c :: rest) : l.drop (i + 1) = rest := by
  rw [← List.tail_drop, h, List.tail_cons]

theorem drop_add_of_drop (h : l.drop i = before ++ rest) : l.drop (i + before.length) = rest := by
  rw [← List.drop_drop, h, List.drop_left]

end Cczoe.Foundations
