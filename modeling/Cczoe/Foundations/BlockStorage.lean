import Mathlib.Data.List.Basic
import Mathlib.Data.List.TakeDrop
import Mathlib.Tactic.Ring

/-!
# Text stored in equal blocks

A text cut into blocks of one length is read and overwritten at offsets of the concatenation.
`overwrite text offset data` replaces the elements from `offset` on by `data` and keeps every other
element; the laws below move an overwriting past a concatenation (`overwrite_append_right`,
`overwrite_append_left`) and split it at a block boundary (`overwrite_split`). `length_flatten`
and `drop_flatten` are the offsets of the blocks themselves.
-/

set_option autoImplicit false
set_option relaxedAutoImplicit false

namespace Cczoe.Foundations.BlockStorage

variable {α : Type*}

/-! ### Overwriting a segment -/

/-- The text with the elements from `offset` on replaced by `data`, as far as `data` reaches. -/
def overwrite (text : List α) (offset : ℕ) (data : List α) : List α :=
  text.take offset ++ data ++ text.drop (offset + data.length)

theorem overwrite_nil (text : List α) (offset : ℕ) : overwrite text offset [] = text := by
  rw [overwrite, List.append_nil, List.length_nil, Nat.add_zero, List.take_append_drop]

/-- Assumes: the data fits. Overwriting keeps the length. -/
theorem length_overwrite {text data : List α} {offset : ℕ}
    (hfits : offset + data.length ≤ text.length) :
    (overwrite text offset data).length = text.length := by
  simp only [overwrite, List.length_append, List.length_take, List.length_drop]
  omega

theorem overwrite_append_right (first second : List α) (offset : ℕ) (data : List α) :
    overwrite (first ++ second) (first.length + offset) data =
      first ++ overwrite second offset data := by
  simp only [overwrite, List.take_length_add_append, Nat.add_assoc,
    List.drop_length_add_append, List.append_assoc]

theorem overwrite_append_left {first : List α} (second : List α) {offset : ℕ} {data : List α}
    (hfits : offset + data.length ≤ first.length) :
    overwrite (first ++ second) offset data = overwrite first offset data ++ second := by
  rw [overwrite, List.take_append_of_le_length (by omega), List.drop_append_of_le_length hfits]
  simp only [overwrite, List.append_assoc]

/-- Assumes: the first part of the data ends where the first text ends. The second part goes to the
start of the second text. -/
theorem overwrite_split {first : List α} (second : List α) {offset : ℕ} {head : List α}
    (tail : List α) (hends : offset + head.length = first.length) :
    overwrite (first ++ second) offset (head ++ tail) =
      overwrite first offset head ++ overwrite second 0 tail := by
  have hdrop : (first ++ second).drop (offset + (head ++ tail).length) =
      second.drop tail.length := by
    have hlength : offset + (head ++ tail).length = first.length + tail.length := by
      rw [List.length_append]
      omega
    rw [hlength, List.drop_length_add_append]
  rw [overwrite, hdrop, List.take_append_of_le_length (by omega)]
  simp only [overwrite, hends, List.drop_length, List.append_nil, List.take_zero, List.nil_append,
    Nat.zero_add, List.append_assoc]

/-- Assumes: the offset lies inside the text. Up to the end of the data, the overwritten text is
the old beginning followed by the data. -/
theorem take_overwrite {text : List α} {offset : ℕ} (data : List α)
    (hoffset : offset ≤ text.length) :
    (overwrite text offset data).take (offset + data.length) = text.take offset ++ data := by
  have hlength : offset + data.length = (text.take offset ++ data).length := by
    rw [List.length_append, List.length_take_of_le hoffset]
  rw [overwrite, hlength, List.take_left]

/-- Assumes: the offset lies in the front of the text. Overwriting and then taking the front, as far
as the data reaches beyond it, is overwriting the front. -/
theorem take_overwrite_max {text : List α} {offset size : ℕ} (data : List α)
    (hoffset : offset ≤ size) (hsize : size ≤ text.length) :
    (overwrite text offset data).take (max size (offset + data.length)) =
      overwrite (text.take size) offset data := by
  have hfront : (text.take offset ++ data).length = offset + data.length := by
    rw [List.length_append, List.length_take_of_le (hoffset.trans hsize)]
  have hmax : max size (offset + data.length) =
      (text.take offset ++ data).length + (size - (offset + data.length)) := by
    rw [hfront]
    omega
  rw [overwrite, hmax, List.take_length_add_append, overwrite, List.take_take,
    Nat.min_eq_left hoffset, List.drop_take]

/-- Assumes: the offset lies in the text. Overwriting on right behind an overwritten segment is one
overwriting. -/
theorem overwrite_overwrite {text : List α} {offset : ℕ} (first second : List α)
    (hoffset : offset ≤ text.length) :
    overwrite (overwrite text offset first) (offset + first.length) second =
      overwrite text offset (first ++ second) := by
  have hfront : (text.take offset ++ first).length = offset + first.length := by
    rw [List.length_append, List.length_take_of_le hoffset]
  have hdrop : (overwrite text offset first).drop (offset + first.length + second.length) =
      text.drop (offset + (first ++ second).length) := by
    rw [overwrite, ← hfront, List.drop_length_add_append, List.drop_drop, hfront,
      List.length_append, Nat.add_assoc]
  rw [overwrite, hdrop, take_overwrite first hoffset, overwrite, List.append_assoc (text.take _)]

/-- Assumes: the data fits. Behind the data, the overwritten text is the old one. -/
theorem getElem?_overwrite_of_le {text data : List α} {offset index : ℕ}
    (hfits : offset + data.length ≤ text.length) (hindex : offset + data.length ≤ index) :
    (overwrite text offset data)[index]? = text[index]? := by
  have hlength : (text.take offset ++ data).length = offset + data.length := by
    rw [List.length_append, List.length_take_of_le (by omega)]
  rw [overwrite, List.getElem?_append_right (by omega), hlength, List.getElem?_drop]
  congr 1
  omega

/-- Assumes: the data fits. Outside the data, the overwritten text is the old one. -/
theorem getElem?_overwrite_of_outside {text data : List α} {offset index : ℕ}
    (hfits : offset + data.length ≤ text.length)
    (hindex : index < offset ∨ offset + data.length ≤ index) :
    (overwrite text offset data)[index]? = text[index]? := by
  rcases hindex with hbefore | hbehind
  · have hlength : index < (text.take offset).length := by
      rw [List.length_take_of_le (by omega)]
      exact hbefore
    rw [overwrite, List.append_assoc, List.getElem?_append_left hlength,
      List.getElem?_take_of_lt hbefore]
  · exact getElem?_overwrite_of_le hfits hbehind

/-- Assumes: the offset lies inside the text. The data stands at the offset. -/
theorem getElem?_overwrite_add {text data : List α} {offset index : ℕ}
    (hoffset : offset ≤ text.length) (hindex : index < data.length) :
    (overwrite text offset data)[offset + index]? = data[index]? := by
  have hlength : (text.take offset).length = offset := List.length_take_of_le hoffset
  rw [overwrite, List.append_assoc, List.getElem?_append_right (by omega), hlength,
    Nat.add_sub_cancel_left, List.getElem?_append_left hindex]

/-! ### Blocks of one length -/

/-- Assumes: something is left of a list from a position on. It starts with the element at the
position, and goes on with what is left behind it. -/
theorem of_drop_eq_cons {blocks rest : List α} {block : α} {position : ℕ}
    (hdrop : blocks.drop position = block :: rest) :
    position < blocks.length ∧ blocks[position]? = some block ∧
      blocks.drop (position + 1) = rest := by
  refine ⟨?_, ?_, ?_⟩
  · have hlength := congrArg List.length hdrop
    rw [List.length_drop, List.length_cons] at hlength
    omega
  · rw [← List.head?_drop, hdrop, List.head?_cons]
  · rw [← List.tail_drop, hdrop, List.tail_cons]

theorem length_flatten {blocks : List (List α)} {size : ℕ}
    (hsize : ∀ block ∈ blocks, block.length = size) :
    blocks.flatten.length = size * blocks.length := by
  induction blocks with
  | nil => rfl
  | cons block rest ih =>
    rw [List.flatten_cons, List.length_append, hsize block List.mem_cons_self,
      ih fun other hother ↦ hsize other (List.mem_cons_of_mem _ hother), List.length_cons]
    ring

theorem drop_flatten {blocks : List (List α)} {size : ℕ}
    (hsize : ∀ block ∈ blocks, block.length = size) {count : ℕ} (hcount : count ≤ blocks.length) :
    (blocks.drop count).flatten = blocks.flatten.drop (size * count) := by
  have hlength : (blocks.take count).flatten.length = size * count := by
    rw [length_flatten fun block hblock ↦ hsize block (List.mem_of_mem_take hblock),
      List.length_take_of_le hcount]
  conv_rhs => rw [← List.take_append_drop count blocks, List.flatten_append, ← hlength]
  rw [List.drop_left]

end Cczoe.Foundations.BlockStorage
