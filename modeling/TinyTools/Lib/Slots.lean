/-
Tables of slots, and the multisets they hold.

A table with holes holds what is found in its slots, each entry as often as it occurs.
To fill a free slot adds one occurrence, to empty a slot removes the one it held, and
while there is a free slot the table holds fewer entries than it has slots.
-/
import Mathlib.Algebra.BigOperators.Group.Finset.Basic
import Mathlib.Algebra.BigOperators.Group.Finset.Piecewise
import Mathlib.Algebra.Order.Group.Multiset
import Mathlib.Algebra.Order.BigOperators.Group.Finset

namespace Slots

variable {ι α : Type}

/-- What one slot contributes. -/
def entry : Option α → Multiset α
  | none => 0
  | some a => {a}

variable [Fintype ι] {f : ι → Option α} {i : ι} {a : α}

/-- What the slots hold. -/
def contents (f : ι → Option α) : Multiset α := ∑ i, entry (f i)

theorem contents_empty (h : ∀ i, f i = none) : contents f = 0 :=
  Finset.sum_eq_zero fun i _ => by rw [h i, entry]

section Update

variable [DecidableEq ι]

/-- Changing one slot exchanges its entry. -/
theorem contents_update (f : ι → Option α) (i : ι) (x : Option α) :
    contents (Function.update f i x) + entry (f i) = contents f + entry x := by
  have hsame : ∑ j ∈ Finset.univ.erase i, entry (Function.update f i x j)
      = ∑ j ∈ Finset.univ.erase i, entry (f j) :=
    Finset.sum_congr rfl fun j hj => by rw [Function.update_of_ne (Finset.ne_of_mem_erase hj)]
  unfold contents
  rw [← Finset.add_sum_erase _ (fun j => entry (Function.update f i x j)) (Finset.mem_univ i),
    ← Finset.add_sum_erase _ (fun j => entry (f j)) (Finset.mem_univ i), hsame,
    Function.update_self]
  ac_rfl

theorem contents_fill (h : f i = none) (a : α) :
    contents (Function.update f i (some a)) = a ::ₘ contents f := by
  have hupdate := contents_update f i (some a)
  rw [h] at hupdate
  simpa [entry, add_comm, Multiset.singleton_add] using hupdate

theorem contents_clear (h : f i = some a) :
    a ::ₘ contents (Function.update f i none) = contents f := by
  have hupdate := contents_update f i none
  rw [h] at hupdate
  simpa [entry, add_comm, Multiset.singleton_add] using hupdate

end Update

/-- As many entries as slots that hold one. -/
theorem card_contents (f : ι → Option α) :
    (contents f).card = (Finset.univ.filter fun i => (f i).isSome).card := by
  unfold contents
  rw [Multiset.card_sum, Finset.card_filter]
  refine Finset.sum_congr rfl fun i _ => ?_
  cases f i with
  | none => rfl
  | some a => rfl

/-- There is room exactly while a slot is free. -/
theorem card_lt_iff : (contents f).card < Fintype.card ι ↔ ∃ i, f i = none := by
  have hle : (Finset.univ.filter fun i => (f i).isSome).card ≤ (Finset.univ : Finset ι).card :=
    Finset.card_filter_le _ _
  rw [card_contents, ← Finset.card_univ, lt_iff_le_and_ne, and_iff_right hle, ne_eq,
    Finset.card_filter_eq_iff]
  simp

end Slots
