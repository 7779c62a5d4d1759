/-
Bounded queues, and what a circular array holds.

`Queue` is the abstract object: a first-in first-out queue that never holds more
than its capacity.  `ringCell` is the array side: the content of each of `n` cells
after a list of values has been stored one by one at positions `0, 1, 2, …` modulo
`n`.  Two facts connect them.  A cell holds the latest value whose number falls on
it, and a value not yet overwritten, one of the last `n`, is still found at its
number modulo `n`.  Nothing depends on how often the positions have wrapped.
-/
import Mathlib.Data.List.Induction
import Mathlib.Data.Int.ModEq
import Mathlib.Data.Nat.Find
import Mathlib.Logic.Function.Basic

namespace Ring

variable {α : Type}

/-! ### Bounded queues -/

/-- A queue that never holds more than `cap` items, oldest first. -/
structure Queue (α : Type) (cap : Nat) where
  items : List α
  bounded : items.length ≤ cap

namespace Queue

variable {cap : Nat}

def empty : Queue α cap := ⟨[], Nat.zero_le _⟩

/-- Append an item, unless the queue is full. -/
def push (q : Queue α cap) (a : α) : Option (Queue α cap) :=
  if h : q.items.length < cap then some ⟨q.items ++ [a], List.length_append.trans_le h⟩ else none

/-- Take the oldest item, unless the queue is empty. -/
def pop : Queue α cap → Option (α × Queue α cap)
  | ⟨[], _⟩ => none
  | ⟨a :: rest, h⟩ => some (a, ⟨rest, Nat.le_of_succ_le h⟩)

@[ext] theorem ext {q q' : Queue α cap} (h : q.items = q'.items) : q = q' := by
  cases q
  cases q'
  simpa using h

theorem push_of_lt {q : Queue α cap} (a : α) (h : q.items.length < cap) :
    q.push a = some ⟨q.items ++ [a], List.length_append.trans_le h⟩ := dif_pos h

theorem push_of_full {q : Queue α cap} (a : α) (h : q.items.length = cap) : q.push a = none :=
  dif_neg (by omega)

theorem pop_of_nil {q : Queue α cap} (h : q.items = []) : q.pop = none := by
  obtain ⟨items, hb⟩ := q
  cases h
  rfl

theorem pop_of_cons {q : Queue α cap} {a : α} {rest : List α} (h : q.items = a :: rest) :
    ∃ hb, q.pop = some (a, ⟨rest, hb⟩) := by
  obtain ⟨items, hb⟩ := q
  cases h
  exact ⟨_, rfl⟩

end Queue

/-! ### Circular arrays -/

/-- The cells after the values were stored one by one at their numbers modulo `n`. -/
def ringCell (init : Nat → α) (n : Nat) (values : List α) : Nat → α :=
  values.zipIdx.foldl (fun cell vk => Function.update cell (vk.2 % n) vk.1) init

variable {init : Nat → α} {n : Nat}

@[simp] theorem ringCell_nil : ringCell init n [] = init := rfl

@[simp] theorem ringCell_snoc (values : List α) (a : α) :
    ringCell init n (values ++ [a])
      = Function.update (ringCell init n values) (values.length % n) a := by
  simp [ringCell, List.zipIdx_append]

/-- A cell no number falls on keeps its first content. -/
theorem ringCell_of_none (values : List α) {j : Nat} (h : ∀ k < values.length, k % n ≠ j) :
    ringCell init n values j = init j := by
  induction values using List.reverseRecOn with
  | nil => rfl
  | append_singleton rest a ih =>
      simp only [List.length_append, List.length_singleton] at h
      have hj : j ≠ rest.length % n := fun hc => h rest.length (by omega) hc.symm
      rw [ringCell_snoc, Function.update_of_ne hj]
      exact ih fun k hk => h k (by omega)

/-- **A cell holds the latest value whose number falls on it.** -/
theorem ringCell_latest (values : List α) {k : Nat} (hk : k < values.length)
    (hlast : ∀ k', k < k' → k' < values.length → k' % n ≠ k % n) :
    ringCell init n values (k % n) = values[k] := by
  induction values using List.reverseRecOn with
  | nil => exact absurd hk (Nat.not_lt_zero k)
  | append_singleton rest a ih =>
      simp only [List.length_append, List.length_singleton] at hk hlast
      rw [ringCell_snoc]
      by_cases hkl : k = rest.length
      · subst hkl
        simp
      · have hlt : k < rest.length := by omega
        have hne : k % n ≠ rest.length % n := fun hc => hlast rest.length hlt (by omega) hc.symm
        rw [Function.update_of_ne hne, List.getElem_append_left hlt]
        exact ih hlt fun k' hk' hl => hlast k' hk' (by omega)

/-- Either no number falls on a cell, or a latest one does and the cell holds its value. -/
theorem ringCell_cases (init : Nat → α) (n : Nat) (values : List α) (j : Nat) :
    ((∀ k < values.length, k % n ≠ j) ∧ ringCell init n values j = init j) ∨
      ∃ k, ∃ hk : k < values.length, k % n = j ∧
        (∀ k', k < k' → k' < values.length → k' % n ≠ j) ∧
        ringCell init n values j = values[k] := by
  by_cases hnone : ∀ k < values.length, k % n ≠ j
  · exact Or.inl ⟨hnone, ringCell_of_none values hnone⟩
  · right
    have hsome : ∃ k, k < values.length ∧ k % n = j := by
      by_contra hc
      exact hnone fun k hk hkj => hc ⟨k, hk, hkj⟩
    -- the greatest number below the length that falls on the cell
    obtain ⟨k₀, hk₀, hk₀j⟩ := hsome
    let P : Nat → Prop := fun k => k < values.length ∧ k % n = j
    have hP : P (Nat.findGreatest P values.length) :=
      Nat.findGreatest_spec (Nat.le_of_lt hk₀) ⟨hk₀, hk₀j⟩
    obtain ⟨hk, hkj⟩ := hP
    have hlast : ∀ k', Nat.findGreatest P values.length < k' → k' < values.length →
        k' % n ≠ j := fun k' hlt hk' hk'j =>
      Nat.findGreatest_is_greatest hlt (Nat.le_of_lt hk') ⟨hk', hk'j⟩
    refine ⟨Nat.findGreatest P values.length, hk, hkj, hlast, ?_⟩
    conv_lhs => rw [← hkj]
    exact ringCell_latest values hk fun k' hlt hk' hc => hlast k' hlt hk' (hc.trans hkj)

/-- Two numbers less than `n` apart fall on different cells. -/
theorem mod_ne_of_lt {a b : Nat} (hab : a < b) (hb : b < a + n) : b % n ≠ a % n := by
  intro h
  have hdvd : n ∣ b - a := (Nat.modEq_iff_dvd' (Nat.le_of_lt hab)).mp h.symm
  exact absurd (Nat.le_of_dvd (by omega) hdvd) (by omega)

/-- **One of the last `n` values is still in its cell.** -/
theorem ringCell_recent (values : List α) {k : Nat} (hk : k < values.length)
    (hrecent : values.length ≤ k + n) : ringCell init n values (k % n) = values[k] :=
  ringCell_latest values hk fun _ hlt hl => mod_ne_of_lt hlt (by omega)

end Ring
