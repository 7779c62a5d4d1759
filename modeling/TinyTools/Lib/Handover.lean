/-
A value that is only ever changed by whoever knows it.

Each change in a list says what it found and what it left.  If the first one found the
value at the start, and each later one found what the one before it left, then every
value was found as often as it was there: once at the start if that is what it was, and
once for each change that left it, except for the value at the end, which nobody has
found yet.  So a value that comes up only once is changed only once.
-/
import Mathlib.Data.Finset.Card
import Mathlib.Data.List.Perm.Basic

namespace Handover

variable {ι α : Type} {found left : ι → α}

/-- From `v` the changes lead to `w`. -/
def Leads (found left : ι → α) : α → List ι → α → Prop
  | v, [], w => v = w
  | v, i :: l, w => v = found i ∧ Leads found left (left i) l w

namespace Leads

theorem snoc {i : ι} : ∀ {l : List ι} {v : α}, Leads found left v l (found i) →
    Leads found left v (l ++ [i]) (left i) := by
  intro l
  induction l with
  | nil =>
      intro v h
      exact ⟨h, rfl⟩
  | cons j l ih =>
      intro v h
      exact ⟨h.1, ih h.2⟩

/-- There is one value they lead to. -/
theorem unique {w w' : α} : ∀ {l : List ι} {v : α}, Leads found left v l w →
    Leads found left v l w' → w = w' := by
  intro l
  induction l with
  | nil =>
      intro v h h'
      exact h.symm.trans h'
  | cons j l ih =>
      intro v h h'
      exact ih h.2 h'.2

/-- What was there at some time is what was found and what is there at the end. -/
theorem balance {w : α} : ∀ {l : List ι} {v : α}, Leads found left v l w →
    (v :: l.map left).Perm (w :: l.map found) := by
  intro l
  induction l with
  | nil =>
      intro v h
      have hvw : v = w := h
      rw [hvw]
      exact List.Perm.refl _
  | cons j l ih =>
      intro v h
      have hl : (left j :: l.map left).Perm (w :: l.map found) := ih h.2
      rw [h.1, List.map_cons, List.map_cons]
      exact (hl.cons (found j)).trans (List.Perm.swap w (found j) (l.map found))

end Leads

/-- Among different elements, at most one has the property. -/
theorem countP_le_one_iff [DecidableEq ι] {p : ι → Bool} {l : List ι} (h : l.Nodup) :
    l.countP p ≤ 1 ↔ ∀ i ∈ l, ∀ j ∈ l, p i = true → p j = true → i = j := by
  rw [List.countP_eq_length_filter, ← List.toFinset_card_of_nodup (h.filter p),
    Finset.card_le_one]
  simp only [List.mem_toFinset, List.mem_filter]
  refine ⟨?_, ?_⟩
  · intro hone i hi j hj hpi hpj
    exact hone i ⟨hi, hpi⟩ j ⟨hj, hpj⟩
  · rintro hone i ⟨hi, hpi⟩ j ⟨hj, hpj⟩
    exact hone i hi j hj hpi hpj

/-- **A value that comes up only once is changed only once.** -/
theorem Leads.once [DecidableEq ι] [DecidableEq α] {l : List ι} {v w x : α}
    (h : Leads found left v l w) (hl : l.Nodup) (hstart : ∀ i ∈ l, left i = x → v ≠ x)
    (hone : ∀ i ∈ l, ∀ j ∈ l, left i = x → left j = x → i = j) :
    ∀ i ∈ l, ∀ j ∈ l, found i = x → found j = x → i = j := by
  have hleft : (l.map left).count x ≤ 1 := by
    rw [List.count, List.countP_map, countP_le_one_iff hl]
    simpa using hone
  have hcame : (v :: l.map left).count x ≤ 1 := by
    rw [List.count_cons]
    split
    · rename_i hv
      have hnone : (l.map left).count x = 0 := by
        rw [List.count_eq_zero]
        intro hx
        obtain ⟨i, hi, hix⟩ := List.mem_map.mp hx
        exact hstart i hi hix (by simpa using hv)
      omega
    · exact hleft
  have hfound : (l.map found).count x ≤ 1 := by
    rw [h.balance.count_eq x, List.count_cons] at hcame
    omega
  rw [List.count, List.countP_map, countP_le_one_iff hl] at hfound
  simpa using hfound

end Handover
