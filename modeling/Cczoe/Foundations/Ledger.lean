import Mathlib.Data.List.Basic

/-!
# Ledgers of one waiting place

A place holds at most one item. An item is supplied while the place is empty, and the item that
waits is handed over or withdrawn. `Balanced entries waiting` says that `entries` is such a history
and `waiting` is what it leaves in the place; `Leads` says the same of the entries of one step, so
that a run is balanced step by step. `Balanced.answered` says what this means for every single
entry.
-/

set_option autoImplicit false
set_option relaxedAutoImplicit false

namespace Cczoe.Foundations.Ledger

variable {α : Type}

/-- An entry of a ledger. What is handed over may be nothing. -/
inductive Entry (α : Type)
  | supplied (item : α)
  | handed (item : Option α)
  | withdrawn
  deriving DecidableEq, Repr

/-- Histories in which every item supplied is handed over or withdrawn before the next one is. -/
inductive Balanced : List (Entry α) → Option α → Prop
  | nil : Balanced [] none
  | supply {entries : List (Entry α)} (item : α) :
      Balanced entries none → Balanced (entries ++ [.supplied item]) (some item)
  | hand {entries : List (Entry α)} {item : α} :
      Balanced entries (some item) → Balanced (entries ++ [.handed (some item)]) none
  | withdraw {entries : List (Entry α)} {item : α} :
      Balanced entries (some item) → Balanced (entries ++ [.withdrawn]) none

/-- Entries that lead, behind any balanced history, from what it leaves to what they leave. -/
def Leads (entries : List (Entry α)) (waiting next : Option α) : Prop :=
  ∀ before, Balanced before waiting → Balanced (before ++ entries) next

theorem leads_nil (waiting : Option α) : Leads [] waiting waiting := by
  intro before hbefore
  rwa [List.append_nil]

theorem leads_supplied (item : α) : Leads [.supplied item] none (some item) :=
  fun _ hbefore ↦ hbefore.supply item

theorem leads_handed (item : α) : Leads [.handed (some item)] (some item) none :=
  fun _ hbefore ↦ hbefore.hand

theorem leads_withdrawn (item : α) : Leads [.withdrawn] (some item) none :=
  fun _ hbefore ↦ hbefore.withdraw

theorem Leads.trans {first second : List (Entry α)} {waiting middle next : Option α}
    (hfirst : Leads first waiting middle) (hsecond : Leads second middle next) :
    Leads (first ++ second) waiting next := by
  intro before hbefore
  rw [← List.append_assoc]
  exact hsecond _ (hfirst before hbefore)

/-- What a balanced history means for each of its entries. -/
structure Answered (entries : List (Entry α)) (waiting : Option α) : Prop where
  /-- What is handed over is the item supplied last, just before. -/
  handed : ∀ before item after, entries = before ++ .handed item :: after →
    ∃ front last, before = front ++ [.supplied last] ∧ item = some last
  /-- What is withdrawn was supplied last, just before. -/
  withdrawn : ∀ before after, entries = before ++ .withdrawn :: after →
    ∃ front last, before = front ++ [.supplied last]
  /-- An item supplied still waits, or is handed over next, or is withdrawn next. -/
  supplied : ∀ before item after, entries = before ++ .supplied item :: after →
    (after = [] ∧ waiting = some item) ∨
      ∃ rest, after = .handed (some item) :: rest ∨ after = .withdrawn :: rest

/-- An entry of a list with one more is an entry of the list, or the last one. -/
theorem append_singleton_eq {entries before after : List α} {last entry : α}
    (heq : entries ++ [last] = before ++ entry :: after) :
    (after = [] ∧ entries = before ∧ last = entry) ∨
      ∃ rest, after = rest ++ [last] ∧ entries = before ++ entry :: rest := by
  rcases List.eq_nil_or_concat after with rfl | ⟨rest, final, rfl⟩
  · obtain ⟨hfront, hlast⟩ := List.append_inj' heq rfl
    exact Or.inl ⟨rfl, hfront, List.singleton_inj.mp hlast⟩
  · rw [List.concat_eq_append, ← List.cons_append, ← List.append_assoc] at heq
    obtain ⟨hfront, hlast⟩ := List.append_inj' heq rfl
    rw [List.singleton_inj.mp hlast, List.concat_eq_append]
    exact Or.inr ⟨rest, rfl, hfront⟩

theorem Balanced.last_supplied {entries : List (Entry α)} {item : α}
    (hbalanced : Balanced entries (some item)) : ∃ front, entries = front ++ [.supplied item] := by
  cases hbalanced with
  | supply item _ => exact ⟨_, rfl⟩

/-- Assumes: a history whose last item waits. Handing it over, or withdrawing it, answers it. -/
theorem Answered.close {entries : List (Entry α)} {item : α} {last : Entry α}
    (hanswered : Answered entries (some item))
    (hwaits : ∃ front, entries = front ++ [.supplied item])
    (hlast : last = .handed (some item) ∨ last = .withdrawn) :
    Answered (entries ++ [last]) none := by
  obtain ⟨front, hfront⟩ := hwaits
  constructor
  · intro before handed after heq
    rcases append_singleton_eq heq with ⟨_, hbefore, rfl⟩ | ⟨rest, _, hbefore⟩
    · rcases hlast with hhanded | hwithdrawn
      · exact ⟨front, item, hbefore.symm.trans hfront, Entry.handed.inj hhanded⟩
      · cases hwithdrawn
    · exact hanswered.handed before handed rest hbefore
  · intro before after heq
    rcases append_singleton_eq heq with ⟨_, hbefore, _⟩ | ⟨rest, _, hbefore⟩
    · exact ⟨front, item, hbefore.symm.trans hfront⟩
    · exact hanswered.withdrawn before rest hbefore
  · intro before other after heq
    right
    rcases append_singleton_eq heq with ⟨_, _, rfl⟩ | ⟨rest, hafter, hbefore⟩
    · rcases hlast with hhanded | hwithdrawn
      · cases hhanded
      · cases hwithdrawn
    · rcases hanswered.supplied before other rest hbefore with ⟨hnil, hother⟩ | ⟨more, hmore⟩
      · -- the item that waited is the one answered now
        rw [hafter, hnil, ← Option.some.inj hother]
        rcases hlast with hhanded | hwithdrawn
        · exact ⟨[], Or.inl (by rw [hhanded]; rfl)⟩
        · exact ⟨[], Or.inr (by rw [hwithdrawn]; rfl)⟩
      · refine ⟨more ++ [last], ?_⟩
        rcases hmore with rfl | rfl
        · exact Or.inl hafter
        · exact Or.inr hafter

theorem Balanced.answered {entries : List (Entry α)} {waiting : Option α}
    (hbalanced : Balanced entries waiting) : Answered entries waiting := by
  induction hbalanced with
  | nil =>
    constructor
    · intro before item after heq
      exact absurd heq.symm (List.append_ne_nil_of_right_ne_nil _ (List.cons_ne_nil _ _))
    · intro before after heq
      exact absurd heq.symm (List.append_ne_nil_of_right_ne_nil _ (List.cons_ne_nil _ _))
    · intro before item after heq
      exact absurd heq.symm (List.append_ne_nil_of_right_ne_nil _ (List.cons_ne_nil _ _))
  | supply item _ ih =>
    constructor
    · intro before handed after heq
      rcases append_singleton_eq heq with ⟨_, _, hlast⟩ | ⟨rest, _, hfront⟩
      · cases hlast
      · exact ih.handed before handed rest hfront
    · intro before after heq
      rcases append_singleton_eq heq with ⟨_, _, hlast⟩ | ⟨rest, _, hfront⟩
      · cases hlast
      · exact ih.withdrawn before rest hfront
    · intro before other after heq
      rcases append_singleton_eq heq with ⟨hnil, _, hlast⟩ | ⟨rest, hafter, hfront⟩
      · cases hlast
        exact Or.inl ⟨hnil, rfl⟩
      · rcases ih.supplied before other rest hfront with ⟨_, hnone⟩ | ⟨more, hmore⟩
        · cases hnone
        · right
          refine ⟨more ++ [.supplied item], ?_⟩
          rcases hmore with rfl | rfl
          · exact Or.inl hafter
          · exact Or.inr hafter
  | hand hbefore ih => exact ih.close hbefore.last_supplied (Or.inl rfl)
  | withdraw hbefore ih => exact ih.close hbefore.last_supplied (Or.inr rfl)

end Cczoe.Foundations.Ledger
