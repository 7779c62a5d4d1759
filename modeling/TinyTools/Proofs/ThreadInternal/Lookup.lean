/-
What the lookup by handle finds.

The loop breaks where `memcmp` is not zero, that is at the first record in use whose
handle is another one.  So as soon as one slot is in use the lookup is wrong for every
handle: either it finds a record with another handle, or all the records in use have
the handle looked for and it finds none of them.
-/
import TinyTools.Thread
import TinyTools.Proofs.ThreadInternal.Multiset

namespace TinyTools

open Interleave

namespace Table

variable {N : Nat} {H τ : Type} [DecidableEq H] {handleOf : Addr → H} {tab : Table N}

/-- A lookup finds a record exactly if it is in the table and has the handle looked for, and none
exactly if no record in the table has it. -/
def Exact (handleOf : Addr → H) (tab : Table N) (handle : H) (found : Option Addr) : Prop :=
  (∀ a, found = some a ↔ (∃ i, tab.holds a i = true) ∧ handleOf a = handle) ∧
    (found = none ↔ ∀ a i, tab.holds a i = true → handleOf a ≠ handle)

theorem holds_of_used (h : Tidy tab) {i : Fin N} (hi : (tab i).inUse = true) :
    ∃ a, tab.holds a i = true := by
  obtain ⟨a, ha⟩ : ∃ a, (tab i).thread = some a := by
    rw [← Option.isSome_iff_exists, ← h i, hi]
  exact ⟨a, by simp [holds, hi, ha]⟩

/-- What is found has another handle. -/
theorem findByHandle_some {handle : H} {a : Addr}
    (h : tab.findByHandle handleOf handle = some a) :
    (∃ i, tab.holds a i = true) ∧ handleOf a ≠ handle := by
  obtain ⟨i, hfirst, hthread⟩ := Option.bind_eq_some_iff.mp h
  have hdiffers : tab.differs handleOf handle i = true := first_eq_some hfirst
  simp only [differs, hthread, Option.any_some, Bool.and_eq_true, decide_eq_true_eq] at hdiffers
  exact ⟨⟨i, by simp [holds, hdiffers.1, hthread]⟩, hdiffers.2⟩

/-- Where nothing is found, every record in the table has the handle looked for. -/
theorem findByHandle_none {handle : H} (h : tab.findByHandle handleOf handle = none) {a : Addr}
    {i : Fin N} (hi : tab.holds a i = true) : handleOf a = handle := by
  obtain ⟨hused, hthread⟩ : (tab i).inUse = true ∧ (tab i).thread = some a := by
    simpa [holds] using hi
  cases hfirst : first (tab.differs handleOf handle) with
  | none =>
      have hsame := first_eq_none hfirst i
      simpa [differs, hused, hthread] using hsame
  | some j =>
      have hdiffers : tab.differs handleOf handle j = true := first_eq_some hfirst
      rw [findByHandle, hfirst] at h
      simp [differs, show (tab j).thread = none from h] at hdiffers

theorem exact_iff (h : Tidy tab) (handle : H) :
    Exact handleOf tab handle (tab.findByHandle handleOf handle) ↔
      ∀ i, (tab i).inUse = false := by
  refine ⟨?_, ?_⟩
  · rintro ⟨hfound, hnone⟩ i
    refine Bool.eq_false_iff.mpr fun hi => ?_
    obtain ⟨a, ha⟩ := holds_of_used h hi
    cases hresult : tab.findByHandle handleOf handle with
    | none => exact hnone.mp hresult a i ha (findByHandle_none hresult ha)
    | some b => exact (findByHandle_some hresult).2 ((hfound b).mp hresult).2
  · intro hfree
    have hempty : ∀ a i, ¬ tab.holds a i = true := by simp [holds, hfree]
    have hresult : tab.findByHandle handleOf handle = none := by
      refine Option.eq_none_iff_forall_ne_some.mpr fun a ha => ?_
      obtain ⟨⟨i, hi⟩, -⟩ := findByHandle_some ha
      exact hempty a i hi
    rw [hresult]
    refine ⟨fun a => iff_of_false (Option.some_ne_none a).symm ?_,
      iff_of_true rfl fun a i hi => absurd hi (hempty a i)⟩
    rintro ⟨⟨i, hi⟩, -⟩
    exact hempty a i hi

/-! ### The functions alone -/

section Runs

variable {t : τ} {s s' : Table N × Option τ} {es : List (tableSig N H).Done} {handle : H}
  {found : Option Addr}

theorem run_find (hfree : s.2 = none)
    (h : (tableSys N handleOf τ).Run t (ttThreadTableFindByHandle handle) s es found s') :
    found = s.1.findByHandle handleOf handle ∧ s' = s := by
  obtain ⟨tab, l⟩ := s
  cases hfree
  have hbody : (tableSys N handleOf τ).Run t (tableBody (.findByHandle handle)) (tab, none) (es ++ [])
      (.thread found) s' :=
    (Machine.run_bind_iff tableSys_again).mpr ⟨found, s', es, [], rfl, h, .ret _ _⟩
  obtain ⟨hfound, hs⟩ := run_body ⟨by rintro ⟨⟩, by rintro ⟨⟩⟩ hbody
  exact ⟨TableVal.thread.inj hfound, hs⟩

theorem findSlot_returns (h : Tidy s.1) (i : Fin N) :
    ∃ r, (tableSys N handleOf τ).Returns t (findSlot handle i) s r s := by
  cases hused : (s.1 i).inUse with
  | false =>
      refine ⟨none, (Machine.returns_step_det (fun _ => rfl) rfl).mpr ?_⟩
      rw [hused]
      exact ⟨[], .ret _ _⟩
  | true =>
      obtain ⟨a, ha⟩ : ∃ a, (s.1 i).thread = some a := by
        rw [← Option.isSome_iff_exists, ← h i, hused]
      refine ⟨if handleOf a ≠ handle then some (some a) else none,
        (Machine.returns_step_det (fun _ => rfl) rfl).mpr ?_⟩
      rw [hused, if_pos rfl]
      refine (Machine.returns_step_det (fun _ => rfl) rfl).mpr ?_
      rw [ha]
      refine (Machine.returns_step_det (fun _ => rfl) rfl).mpr ?_
      split
      · refine (Machine.returns_step_det (fun _ => rfl) rfl).mpr ?_
        rw [ha]
        exact ⟨[], .ret _ _⟩
      · exact ⟨[], .ret _ _⟩

theorem scan_returns (h : Tidy s.1) (slots : List (Fin N)) :
    ∃ r, (tableSys N handleOf τ).Returns t (scan (findSlot handle) slots) s r s := by
  induction slots with
  | nil => exact ⟨none, [], .ret _ _⟩
  | cons i slots ih =>
      obtain ⟨r, hslot⟩ : ∃ r, (tableSys N handleOf τ).Returns t (findSlot handle i) s r s :=
        findSlot_returns h i
      cases r with
      | none =>
          obtain ⟨r', hrest⟩ := ih
          exact ⟨r', hslot.bind tableSys_again hrest⟩
      | some x => exact ⟨some x, hslot.bind tableSys_again ⟨[], .ret _ _⟩⟩

/-- A lookup can always be made. -/
theorem find_returns (hfree : s.2 = none) (h : Tidy s.1) (t : τ) (handle : H) :
    ∃ found, (tableSys N handleOf τ).Returns t (ttThreadTableFindByHandle handle) s found s := by
  obtain ⟨tab, l⟩ := s
  cases hfree
  obtain ⟨r, hscan⟩ : ∃ r, (tableSys N handleOf τ).Returns t
      (scan (findSlot handle) (List.finRange N)) (tab, some t) r (tab, some t) :=
    scan_returns (s := (tab, some t)) h _
  refine ⟨r.getD none, (Machine.returns_step_det (fun _ => rfl) rfl).mpr ?_⟩
  refine hscan.bind tableSys_again ((Machine.returns_step_det (fun _ => rfl) rfl).mpr ?_)
  exact ⟨[], .ret _ _⟩

end Runs

variable {handleOf : Addr → Option H} {self : τ → H} {t : τ}

/-- A thread that asks for itself looks up its own handle. -/
theorem run_self {s : Unit × Table N × Option τ} {s' : Unit × Table N × Option τ}
    {es : List ((selfSig H).sum (tableSig N (Option H))).Done} {found : Option Addr} :
    (threadSelfMachine N handleOf self).Run t (ttThreadSelf.link tableFunction) s es found s' ↔
      ∃ es₁ : List (tableSig N (Option H)).Done,
        es = ⟨.inl (), self t⟩ :: es₁.map (fun e => ⟨.inr e.1, e.2⟩) ∧
        (tableSys N handleOf τ).Run t (ttThreadTableFindByHandle (some (self t))) s.2 es₁ found
          s'.2 := by
  have hlink : (ttThreadSelf.link tableFunction :
      Prog ((selfSig H).sum (tableSig N (Option H))) (Option Addr))
      = .step (.inl ()) fun handle => (ttThreadTableFindByHandle (some handle)).inr := by
    show Prog.step _ _ = Prog.step _ _
    congr 1
    funext handle
    exact Prog.bind_ret _
  rw [hlink, threadSelfMachine, Machine.run_sum_inl (fun _ => rfl) fun _ => rfl]
  refine ⟨?_, ?_⟩
  · rintro ⟨es₁, rfl, hrun⟩
    obtain ⟨es₂, rfl, hfind, -⟩ := Machine.run_inr.mp hrun
    exact ⟨es₂, rfl, hfind⟩
  · rintro ⟨es₁, rfl, hfind⟩
    exact ⟨_, rfl, Machine.run_inr.mpr ⟨es₁, rfl, hfind, rfl⟩⟩

end Table

/--
**The lookup by handle is right exactly while the table is empty.** In every table that
registrations and removals lead to, and for every handle, it finds what it should if
and only if no slot is in use, and it never finds a record with that handle.  The same
goes for a thread that asks for itself.
-/
theorem ttThreadTableFindByHandle_exact_iff {N : Nat} {H τ : Type} [DecidableEq H]
    {handleOf : Addr → Option H} {L : Table.TableLog N (Option H) τ} {s : Table N × Option τ}
    (hL : ∀ e ∈ L, Table.Edits e.call)
    (h : Sequential (tableSys N handleOf τ) (.zero N, none) L s) :
    (∀ t handle,
      (∃ found, (tableSys N handleOf τ).Returns t (ttThreadTableFindByHandle handle) s found s) ∧
      ∀ found s', (tableSys N handleOf τ).Returns t (ttThreadTableFindByHandle handle) s found s' →
        s' = s ∧ (∀ a, found = some a → handleOf a ≠ handle) ∧
        (Table.Exact handleOf s.1 handle found ↔ ∀ i, (s.1 i).inUse = false)) ∧
    ∀ (self : τ → H) t,
      (∃ found, (threadSelfMachine N handleOf self).Returns t (ttThreadSelf.link tableFunction)
        ((), s) found ((), s)) ∧
      ∀ found s', (threadSelfMachine N handleOf self).Returns t (ttThreadSelf.link tableFunction)
          ((), s) found s' →
        s' = ((), s) ∧ (∀ a, found = some a → handleOf a ≠ some (self t)) ∧
        (Table.Exact handleOf s.1 (some (self t)) found ↔ ∀ i, (s.1 i).inUse = false) := by
  have hs := Table.holding hL h
  have hfinds : ∀ t handle,
      (∃ found, (tableSys N handleOf τ).Returns t (ttThreadTableFindByHandle handle) s found s) ∧
      ∀ found s', (tableSys N handleOf τ).Returns t (ttThreadTableFindByHandle handle) s found s' →
        s' = s ∧ (∀ a, found = some a → handleOf a ≠ handle) ∧
        (Table.Exact handleOf s.1 handle found ↔ ∀ i, (s.1 i).inUse = false) := by
    intro t handle
    refine ⟨Table.find_returns hs.free hs.tidy t handle, ?_⟩
    rintro found s' ⟨es, hrun⟩
    obtain ⟨rfl, rfl⟩ := Table.run_find hs.free hrun
    exact ⟨rfl, fun a ha => (Table.findByHandle_some ha).2, Table.exact_iff hs.tidy handle⟩
  refine ⟨hfinds, fun self t => ?_⟩
  obtain ⟨⟨found, es, hrun⟩, hall⟩ := hfinds t (some (self t))
  refine ⟨⟨found, _, Table.run_self.mpr ⟨es, rfl, hrun⟩⟩, ?_⟩
  rintro found' ⟨u, s'⟩ ⟨es', hrun'⟩
  obtain ⟨es₁, -, hfind⟩ := Table.run_self.mp hrun'
  obtain ⟨rfl, hrest⟩ := hall found' s' ⟨es₁, hfind⟩
  exact ⟨rfl, hrest⟩

/-- In a table to which one record was added, its thread does not find itself. -/
theorem ttThreadTableFindByHandle_exact_registered :
    ∃ s, (tableSys 1 (fun _ => some 7) Unit).Returns () (tableBody (.register (some 5)))
        (.zero 1, none) (.err .success) s ∧
      ∃ found, (threadSelfMachine 1 (fun _ => some 7) fun _ : Unit => 7).Returns ()
          (ttThreadSelf.link tableFunction) ((), s) found ((), s) ∧
        ¬ Table.Exact (fun _ => some 7) s.1 (some 7) found := by
  obtain ⟨es, s, hrun, hused⟩ : ∃ es s, (tableSys 1 (fun _ => some 7) Unit).Run ()
      ((tableSys 1 (fun _ => some 7) Unit).body (.register (some 5))) (.zero 1, none) es
      (TableVal.err .success) s ∧ (s.1 0).inUse = true :=
    ⟨_, _, Machine.run_of_eval (List.replicate 5 ()) rfl, rfl⟩
  have h₀ : Sequential (tableSys 1 (fun _ => some 7) Unit) (.zero 1, none) [] (.zero 1, none) := .nil
  have h := h₀.snoc (e := ⟨0, (), .register (some 5), es, .err .success⟩) hrun
  have hL : ∀ e ∈ ([] : Table.TableLog 1 (Option Nat) Unit) ++
      [⟨0, (), .register (some 5), es, .err .success⟩], Table.Edits e.call := by
    simp [Table.Edits]
  obtain ⟨⟨found, hfound⟩, hexact⟩ :=
    (ttThreadTableFindByHandle_exact_iff hL h).2 (fun _ => 7) ()
  refine ⟨s, ⟨es, hrun⟩, found, hfound, fun hfind => ?_⟩
  have hfree := (hexact found _ hfound).2.2.mp hfind 0
  rw [hused] at hfree
  cases hfree

/-- **The only record in the table is not found by its handle.** -/
theorem ttThreadTableFindByHandle_misses :
    ∃ s, (tableSys 1 (fun _ => some 7) Unit).Returns () (ttThreadTableRegister (some 5))
        (.zero 1, none) .success s ∧
      (tableSys 1 (fun _ => some 7) Unit).Returns () (ttThreadTableFindByHandle (some 7)) s none s ∧
      ¬ Table.Exact (fun _ => some 7) s.1 (some 7) none := by
  refine ⟨_, ⟨_, Machine.run_of_eval (List.replicate 5 ()) rfl⟩,
    ⟨_, Machine.run_of_eval (List.replicate 5 ()) rfl⟩, ?_⟩
  intro hexact
  have hnone := hexact.2.mp rfl 5 0
  exact hnone rfl rfl

end TinyTools
