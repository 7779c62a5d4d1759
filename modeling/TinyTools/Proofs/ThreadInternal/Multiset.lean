/-
The thread table is a bounded multiset whose entries stay where they are.

A slot is in use exactly if it holds a record, so what the table holds is a multiset of
records and the number of slots in use is its size.  Registering fills the first free
slot and unregistering empties the first one that holds the record; no other slot is
touched.  That is what one call does, and the rest is induction over the calls: an entry
leaves its slot only through the removal that finds it there first, and the table holds
what was registered and not removed.
-/
import TinyTools.Lib.Slots
import TinyTools.Proofs.ThreadInternal

namespace TinyTools

open Interleave

namespace Table

variable {N : Nat} {H τ : Type}

/-! ### What the table holds -/

/-- The record in a slot that is in use. -/
def entries (tab : Table N) (i : Fin N) : Option Addr :=
  if (tab i).inUse then (tab i).thread else none

/-- The records in the table, each as often as it occurs. -/
def contents (tab : Table N) : Multiset Addr := Slots.contents tab.entries

/-- How many slots are in use. -/
def used (tab : Table N) : Nat := (Finset.univ.filter fun i => (tab i).inUse = true).card

/-- The calls that add and remove records. -/
def Edits (c : TableCall H) : Prop := ∃ thread, c = .register thread ∨ c = .unregister thread

theorem Edits.using {c : TableCall H} (h : Edits c) : Using c := by
  obtain ⟨thread, rfl | rfl⟩ := h
  · exact ⟨by rintro ⟨⟩, by rintro ⟨⟩⟩
  · exact ⟨by rintro ⟨⟩, by rintro ⟨⟩⟩

/-- A slot holds a record exactly if it is in use. -/
def Tidy (tab : Table N) : Prop := ∀ i, (tab i).inUse = (tab i).thread.isSome

theorem tidy_zero (N : Nat) : Tidy (.zero N) := fun _ => rfl

theorem Tidy.update {tab : Table N} (h : Tidy tab) (i : Fin N) {x : TtThreadTableEntry}
    (hx : x.inUse = x.thread.isSome) : Tidy (Function.update tab i x) :=
  Function.forall_update_iff tab (p := fun _ x => x.inUse = x.thread.isSome)
    |>.mpr ⟨hx, fun j _ => h j⟩

theorem Tidy.entries {tab : Table N} (h : Tidy tab) (i : Fin N) : tab.entries i = (tab i).thread := by
  unfold Table.entries
  have hi := h i
  cases hthread : (tab i).thread with
  | none => simp
  | some a => simp [hi, hthread]

theorem Tidy.used {tab : Table N} (h : Tidy tab) : tab.used = tab.contents.card := by
  unfold Table.used contents
  rw [Slots.card_contents]
  congr 1
  refine Finset.filter_congr fun i _ => ?_
  rw [h.entries i, h i]

theorem entries_update (tab : Table N) (i : Fin N) (x : TtThreadTableEntry) :
    entries (Function.update tab i x)
      = Function.update tab.entries i (if x.inUse then x.thread else none) := by
  funext j
  by_cases hj : j = i
  · subst hj
    simp [entries]
  · simp [entries, hj]

/-- The first slot found is the lowest. -/
theorem first_least {P : Fin N → Bool} {i : Fin N} (h : first P = some i) :
    IsLeast {j | P j = true} i := by
  refine ⟨first_eq_some h, fun j hj => ?_⟩
  obtain ⟨-, before, after, hlist, hbefore⟩ := List.find?_eq_some_iff_append.mp h
  have hmem : j ∈ before ++ i :: after := hlist ▸ List.mem_finRange j
  have hsorted : (before ++ i :: after).Pairwise (· < ·) := hlist ▸ List.pairwise_lt_finRange N
  rcases List.mem_append.mp hmem with hj' | hj'
  · exact absurd hj (by simpa using hbefore j hj')
  · rcases List.mem_cons.mp hj' with rfl | hj'
    · exact le_refl j
    · exact le_of_lt (List.rel_of_pairwise_cons (List.pairwise_append.mp hsorted).2.1 hj')

/-! ### What a call does -/

/-- What registering `a` does: where there is room, `a` is there once more, in the lowest free
slot. -/
structure Registers (a : Addr) (tab : Table N) (result : TtError) (tab' : Table N) : Prop where
  room : result = .success ↔ tab.used < N
  added : result = .success → tab'.contents = a ::ₘ tab.contents ∧
    ∃ i, IsLeast {j | (tab j).inUse = false} i ∧ tab' = Function.update tab i ⟨some a, true⟩
  refused : result ≠ .success → tab' = tab

/-- What unregistering `a` does: where `a` is in the table, it is there once less, the lowest slot
that held it being free. -/
structure Unregisters (a : Addr) (tab : Table N) (result : TtError) (tab' : Table N) : Prop where
  found : result = .success ↔ ∃ i, tab.holds a i = true
  removed : result = .success → a ::ₘ tab'.contents = tab.contents ∧
    ∃ i, IsLeast {j | tab.holds a j = true} i ∧ tab' = Function.update tab i .zero
  refused : result ≠ .success → tab' = tab

/-- What the calls do to a bounded multiset whose entries stay where they are. -/
def Lawful : TableCall H → Table N → TtError → Table N → Prop
  | .register (some a), tab, result, tab' => Registers a tab result tab'
  | .unregister (some a), tab, result, tab' => Unregisters a tab result tab'
  | _, tab, result, tab' => result ≠ .success ∧ tab' = tab

variable {tab : Table N}

theorem Tidy.used_lt_iff (h : Tidy tab) : tab.used < N ↔ ∃ i, (tab i).inUse = false := by
  have hroom := Slots.card_lt_iff (f := tab.entries)
  rw [Fintype.card_fin] at hroom
  rw [h.used, contents, hroom]
  refine exists_congr fun i => ?_
  rw [h.entries i, h i]
  simp

theorem contents_fill {i : Fin N} (hi : (tab i).inUse = false) (a : Addr) :
    contents (Function.update tab i ⟨some a, true⟩) = a ::ₘ tab.contents := by
  have hentry : tab.entries i = none := by rw [entries, hi, if_neg Bool.false_ne_true]
  rw [contents, entries_update]
  exact Slots.contents_fill hentry a

theorem contents_clear {i : Fin N} {a : Addr} (hi : tab.holds a i = true) :
    a ::ₘ contents (Function.update tab i .zero) = tab.contents := by
  obtain ⟨hused, hthread⟩ : (tab i).inUse = true ∧ (tab i).thread = some a := by
    simpa [holds] using hi
  have hentry : tab.entries i = some a := by rw [entries, if_pos hused, hthread]
  rw [contents, entries_update]
  exact Slots.contents_clear hentry

theorem register_lawful (h : Tidy tab) (a : Addr) :
    Registers a tab (tab.register (some a)).1 (tab.register (some a)).2 ∧
      Tidy (tab.register (some a)).2 := by
  unfold register
  cases hfirst : first fun i => !(tab i).inUse with
  | some i =>
      have hleast : IsLeast {j | (tab j).inUse = false} i := by simpa using first_least hfirst
      refine ⟨⟨iff_of_true rfl (h.used_lt_iff.mpr ⟨i, hleast.1⟩), ?_, absurd rfl⟩, h.update i rfl⟩
      intro _
      exact ⟨contents_fill hleast.1 a, i, hleast, rfl⟩
  | none =>
      have hfull : ¬ tab.used < N := by
        rw [h.used_lt_iff]
        rintro ⟨i, hi⟩
        simpa [hi] using first_eq_none hfirst i
      exact ⟨⟨iff_of_false TtError.noConfusion hfull, TtError.noConfusion, fun _ => rfl⟩, h⟩

theorem unregister_lawful (h : Tidy tab) (a : Addr) :
    Unregisters a tab (tab.unregister (some a)).1 (tab.unregister (some a)).2 ∧
      Tidy (tab.unregister (some a)).2 := by
  unfold unregister
  cases hfirst : first (tab.holds a) with
  | some i =>
      have hleast : IsLeast {j | tab.holds a j = true} i := first_least hfirst
      simp only [hfirst]
      refine ⟨⟨iff_of_true rfl ⟨i, hleast.1⟩, ?_, absurd rfl⟩, h.update i rfl⟩
      intro _
      exact ⟨contents_clear hleast.1, i, hleast, rfl⟩
  | none =>
      have hnone : ¬ ∃ i, tab.holds a i = true := by
        rintro ⟨i, hi⟩
        simpa [hi] using first_eq_none hfirst i
      simp only [hfirst]
      exact ⟨⟨iff_of_false TtError.noConfusion hnone, TtError.noConfusion, fun _ => rfl⟩, h⟩

theorem Lawful.refused {c : TableCall H} {result : TtError} {tab' : Table N} (hc : Edits c)
    (h : Lawful c tab result tab') (hresult : result ≠ .success) : tab' = tab := by
  obtain ⟨_ | a, rfl | rfl⟩ := hc
  · exact h.2
  · exact h.2
  · exact Registers.refused h hresult
  · exact Unregisters.refused h hresult

variable [DecidableEq H] {handleOf : Addr → H}

theorem call_lawful (handleOf : Addr → H) (h : Tidy tab) {c : TableCall H} (hc : Edits c) :
    ∃ result, (call handleOf c tab).1 = .err result ∧
      Lawful c tab result (call handleOf c tab).2 ∧ Tidy (call handleOf c tab).2 := by
  obtain ⟨thread, rfl | rfl⟩ := hc
  · refine ⟨_, rfl, ?_⟩
    cases thread with
    | none => exact ⟨⟨TtError.noConfusion, rfl⟩, h⟩
    | some a => exact register_lawful h a
  · refine ⟨_, rfl, ?_⟩
    cases thread with
    | none => exact ⟨⟨TtError.noConfusion, rfl⟩, h⟩
    | some a => exact unregister_lawful h a

/-! ### Calls one after the other -/

abbrev TableLog (N : Nat) (H τ : Type) := List (LogEntry (tableSig N H) τ (TableCall H) TableVal)

/-- The record that a call added to the table. -/
def adds : TableCall H → TableVal → Option Addr
  | .register thread, .err .success => thread
  | _, _ => none

/-- The record that a call removed from the table. -/
def removes : TableCall H → TableVal → Option Addr
  | .unregister thread, .err .success => thread
  | _, _ => none

/-- The records registered by the calls, each as often as it was. -/
def added (L : TableLog N H τ) : Multiset Addr := L.filterMap fun e => adds e.call e.val

/-- The records unregistered by the calls, each as often as it was. -/
def removed (L : TableLog N H τ) : Multiset Addr := L.filterMap fun e => removes e.call e.val

omit [DecidableEq H] in
theorem added_snoc (L : TableLog N H τ) (e : LogEntry (tableSig N H) τ (TableCall H) TableVal) :
    added (L ++ [e]) = added L + Slots.entry (adds e.call e.val) := by
  unfold added
  rw [List.filterMap_append, ← Multiset.coe_add]
  congr 1
  cases hadds : adds e.call e.val with
  | none => simp [hadds, Slots.entry]
  | some a => simp [hadds, Slots.entry]

omit [DecidableEq H] in
theorem removed_snoc (L : TableLog N H τ) (e : LogEntry (tableSig N H) τ (TableCall H) TableVal) :
    removed (L ++ [e]) = removed L + Slots.entry (removes e.call e.val) := by
  unfold removed
  rw [List.filterMap_append, ← Multiset.coe_add]
  congr 1
  cases hremoves : removes e.call e.val with
  | none => simp [hremoves, Slots.entry]
  | some a => simp [hremoves, Slots.entry]

omit [DecidableEq H] in
theorem adds_of_error (c : TableCall H) {result : TtError} (h : result ≠ .success) :
    adds c (.err result) = none := by
  cases c <;> cases result <;> first | rfl | exact absurd rfl h

omit [DecidableEq H] in
theorem removes_of_error (c : TableCall H) {result : TtError} (h : result ≠ .success) :
    removes c (.err result) = none := by
  cases c <;> cases result <;> first | rfl | exact absurd rfl h

omit [DecidableEq H] in
/-- One call accounts for the change of the contents. -/
theorem Lawful.contents {c : TableCall H} {result : TtError} {tab' : Table N} (hc : Edits c)
    (h : Lawful c tab result tab') :
    tab'.contents + Slots.entry (removes c (.err result))
      = tab.contents + Slots.entry (adds c (.err result)) := by
  by_cases hresult : result = .success
  · subst hresult
    obtain ⟨_ | a, rfl | rfl⟩ := hc
    · exact absurd rfl h.1
    · exact absurd rfl h.1
    · show tab'.contents + 0 = tab.contents + {a}
      rw [(Registers.added h rfl).1, ← Multiset.singleton_add, add_zero, add_comm]
    · show tab'.contents + {a} = tab.contents + 0
      rw [← (Unregisters.removed h rfl).1, ← Multiset.singleton_add, add_zero, add_comm]
  · rw [h.refused hc hresult, adds_of_error c hresult, removes_of_error c hresult]

/-- An entry leaves its slot only through the removal that finds it there first. -/
def Stays (handleOf : Addr → H) (s : Table N × Option τ) (L : TableLog N H τ)
    (s' : Table N × Option τ) (i : Fin N) : Prop :=
  s'.1 i = s.1 i ∨ ∃ L₁ e L₂ s₁ a, L = L₁ ++ e :: L₂ ∧
    Sequential (tableSys N handleOf τ) s L₁ s₁ ∧ s₁.1 i = s.1 i ∧ (s.1 i).thread = some a ∧
    e.call = .unregister (some a) ∧ e.val = .err .success ∧
    IsLeast {j | s₁.1.holds a j = true} i

/-- What holds after the calls `L` on the cleared table. -/
structure Holding (L : TableLog N H τ) (s : Table N × Option τ) : Prop where
  free : s.2 = none
  tidy : Tidy s.1
  contents : s.1.contents + removed L = added L

/-- A call in a state whose table is tidy and whose mutex is free. -/
theorem run_lawful {t : τ} {c : TableCall H} (hc : Edits c) {s s' : Table N × Option τ}
    (hfree : s.2 = none) (htidy : Tidy s.1) {es : List (tableSig N H).Done} {v : TableVal}
    (h : (tableSys N handleOf τ).Run t (tableBody c) s es v s') :
    ∃ result, v = .err result ∧ Lawful c s.1 result s'.1 ∧ Tidy s'.1 ∧ s'.2 = none := by
  obtain ⟨tab, l⟩ := s
  cases hfree
  obtain ⟨rfl, rfl⟩ := run_body hc.using h
  obtain ⟨result, hresult, hlawful, htidy'⟩ := call_lawful handleOf htidy hc
  exact ⟨result, hresult, hlawful, htidy', rfl⟩

theorem holding {L : TableLog N H τ} {s : Table N × Option τ} (hL : ∀ e ∈ L, Edits e.call)
    (h : Sequential (tableSys N handleOf τ) (.zero N, none) L s) : Holding L s := by
  induction h with
  | nil =>
      refine ⟨rfl, tidy_zero N, ?_⟩
      show contents (.zero N) + 0 = 0
      rw [add_zero]
      exact Slots.contents_empty fun _ => rfl
  | @snoc L s s' e _ hrun ih =>
      have hs := ih fun e' he' => hL e' (List.mem_append_left _ he')
      have he : Edits e.call := hL e (by simp)
      obtain ⟨result, hval, hlawful, htidy, hfree⟩ := run_lawful he hs.free hs.tidy hrun
      refine ⟨hfree, htidy, ?_⟩
      have hcontents := hlawful.contents he
      rw [added_snoc, removed_snoc, hval, ← hs.contents, add_right_comm, ← hcontents]
      ac_rfl

omit [DecidableEq H] in
/-- No call moves or alters an entry, but for the removal of that entry. -/
theorem Lawful.entry {c : TableCall H} {result : TtError} {tab' : Table N} (hc : Edits c)
    (h : Lawful c tab result tab') {i : Fin N} (hi : (tab i).inUse = true) :
    tab' i = tab i ∨ ∃ a, (tab i).thread = some a ∧ c = .unregister (some a) ∧
      result = .success ∧ IsLeast {j | tab.holds a j = true} i := by
  by_cases hresult : result = .success
  · obtain ⟨_ | a, rfl | rfl⟩ := hc
    · exact Or.inl (congrFun h.2 i)
    · exact Or.inl (congrFun h.2 i)
    · obtain ⟨-, j, hj, rfl⟩ := Registers.added h hresult
      refine Or.inl (Function.update_of_ne ?_ _ _)
      rintro rfl
      rw [hj.1] at hi
      cases hi
    · obtain ⟨-, j, hj, rfl⟩ := Unregisters.removed h hresult
      by_cases hij : i = j
      · subst hij
        have hholds : tab.holds a i = true := hj.1
        exact Or.inr ⟨a, by simpa [holds, hi] using hholds, rfl, hresult, hj⟩
      · exact Or.inl (Function.update_of_ne hij _ _)
  · exact Or.inl (congrFun (h.refused hc hresult) i)

theorem stays {s s' : Table N × Option τ} (hfree : s.2 = none) (htidy : Tidy s.1)
    {L : TableLog N H τ} (hL : ∀ e ∈ L, Edits e.call)
    (h : Sequential (tableSys N handleOf τ) s L s') {i : Fin N} (hi : (s.1 i).inUse = true) :
    Stays handleOf s L s' i ∧ Tidy s'.1 ∧ s'.2 = none := by
  induction h with
  | nil => exact ⟨Or.inl rfl, htidy, hfree⟩
  | @snoc L s₁ s₂ e hs hrun ih =>
      obtain ⟨hstays, htidy₁, hfree₁⟩ := ih fun e' he' => hL e' (List.mem_append_left _ he')
      have he : Edits e.call := hL e (by simp)
      obtain ⟨result, hval, hlawful, htidy₂, hfree₂⟩ := run_lawful he hfree₁ htidy₁ hrun
      refine ⟨?_, htidy₂, hfree₂⟩
      rcases hstays with hsame | ⟨L₁, e', L₂, s₃, a, rfl, hs₃, hrest⟩
      · rcases hlawful.entry he (i := i) (by rw [hsame, hi]) with hkept | ⟨a, ha, hcall, hok, hleast⟩
        · exact Or.inl (hkept.trans hsame)
        · rw [hsame] at ha
          exact Or.inr ⟨L, e, [], s₁, a, rfl, hs, hsame, ha, hcall, by rw [hval, hok], hleast⟩
      · exact Or.inr ⟨L₁, e', L₂ ++ [e], s₃, a, by simp, hs₃, hrest⟩

/-! ### Every call can be made -/

/-- A step on the table or a release. -/
def Ready : (tableSig N H).Op → Prop
  | .inl (.readHandle _) => False
  | .inl _ => True
  | .inr (.unlock _) => True
  | .inr _ => False

theorem ready_steps (handleOf : Addr → H) (t : τ) (p : (tableSig N H).Op) (hp : Ready p)
    (s : Table N × Option τ) :
    ∃ x r s', (tableSys N handleOf τ).exec x t p s = some (r, s') := by
  rcases p with p | p
  · cases p with
    | readHandle thread => exact hp.elim
    | _ => exact ⟨(), _, _, rfl⟩
  · cases p with
    | unlock m => cases m <;> exact ⟨(), _, _, rfl⟩
    | _ => exact hp.elim

omit [DecidableEq H] in
theorem ready_scan {α : Type} {body : Fin N → Prog (tableSig N H) (Option α)}
    (hbody : ∀ i, (body i).Every Ready) (slots : List (Fin N)) : (scan body slots).Every Ready := by
  induction slots with
  | nil => trivial
  | cons i slots ih =>
      refine (hbody i).bind fun r => ?_
      cases r with
      | none => exact ih
      | some a => trivial

omit [DecidableEq H] in
theorem ready_registerSlot (a : Addr) (i : Fin N) : (registerSlot (H := H) a i).Every Ready :=
  ⟨trivial, fun _ => Prog.every_ite ⟨trivial, fun _ => ⟨trivial, fun _ => trivial⟩⟩ trivial⟩

omit [DecidableEq H] in
theorem ready_unregisterSlot (a : Addr) (i : Fin N) : (unregisterSlot (H := H) a i).Every Ready :=
  ⟨trivial, fun _ => Prog.every_ite ⟨trivial, fun _ => Prog.every_ite
    ⟨trivial, fun _ => ⟨trivial, fun _ => trivial⟩⟩ trivial⟩ trivial⟩

/-- While the mutex is free, a call that scans runs to its end. -/
theorem section_runs {α β : Type} {body : Fin N → Prog (tableSig N H) (Option α)}
    (hbody : ∀ i, (body i).Every Ready) (g : Option α → β) (t : τ) (tab : Table N) :
    ∃ es v s', (tableSys N handleOf τ).Run t (.step (.inr (.lock (some ()))) fun _ =>
      scan body (List.finRange N) >>= fun r =>
      .step (.inr (.unlock (some ()))) fun _ => .ret (g r)) (tab, none) es v s' := by
  have hrest : (scan body (List.finRange N) >>= fun r =>
      (.step (.inr (.unlock (some ()))) fun _ => .ret (g r) : Prog (tableSig N H) β)).Every Ready :=
    (ready_scan hbody _).bind fun _ => ⟨trivial, fun _ => trivial⟩
  obtain ⟨es, v, s', hrun⟩ :=
    Machine.run_of_every tableSys_again (ready_steps handleOf t) hrest (tab, some t)
  exact ⟨_, v, s', run_lock.mpr ⟨es, rfl, hrun⟩⟩

theorem body_runs {c : TableCall H} (hc : Edits c) (t : τ) (tab : Table N) :
    ∃ es v s', (tableSys N handleOf τ).Run t (tableBody c) (tab, none) es v s' := by
  obtain ⟨_ | a, rfl | rfl⟩ := hc
  · exact ⟨_, _, _, .ret _ _⟩
  · exact ⟨_, _, _, .ret _ _⟩
  · simp only [tableBody, ttThreadTableRegister, Prog.step_bind, Prog.bind_assoc]
    exact section_runs (ready_registerSlot a) _ t tab
  · simp only [tableBody, ttThreadTableUnregister, Prog.step_bind, Prog.bind_assoc]
    exact section_runs (ready_unregisterSlot a) _ t tab

end Table

/--
**The thread table is a bounded multiset with stable slots.** After any registrations
and removals on the cleared table, one after the other, it holds what was registered
and not removed, and any further one of these calls returns and does what it does to
such a multiset: registering succeeds exactly while fewer than `N` slots are in use
and fills the lowest free one, unregistering succeeds exactly if the record is in a
slot and empties the lowest one that holds it, a call that fails leaves the table as
it is.  Whatever calls follow, an entry stays in its slot until a removal of that
record finds it there.
-/
theorem ttThreadTable_multiset {N : Nat} {H τ : Type} [DecidableEq H] {handleOf : Addr → H}
    {L : Table.TableLog N H τ} {s : Table N × Option τ} (hL : ∀ e ∈ L, Table.Edits e.call)
    (h : Sequential (tableSys N handleOf τ) (.zero N, none) L s) :
    s.1.contents + Table.removed L = Table.added L ∧
      s.1.used + (Table.removed L).card = (Table.added L).card ∧
      (∀ t c, Table.Edits c →
        ∃ es v s', (tableSys N handleOf τ).Run t (tableBody c) s es v s') ∧
      (∀ t c es v s', Table.Edits c → (tableSys N handleOf τ).Run t (tableBody c) s es v s' →
        ∃ result, v = .err result ∧ Table.Lawful c s.1 result s'.1) ∧
      ∀ L' s', (∀ e ∈ L', Table.Edits e.call) → Sequential (tableSys N handleOf τ) s L' s' →
        ∀ i, (s.1 i).inUse = true → Table.Stays handleOf s L' s' i := by
  have hs := Table.holding hL h
  refine ⟨hs.contents, ?_, ?_, ?_, ?_⟩
  · rw [hs.tidy.used, ← Multiset.card_add, hs.contents]
  · intro t c hc
    obtain ⟨tab, l⟩ := s
    cases hs.free
    exact Table.body_runs hc t tab
  · intro t c es v s' hc hrun
    obtain ⟨result, hval, hlawful, -⟩ := Table.run_lawful hc hs.free hs.tidy hrun
    exact ⟨result, hval, hlawful⟩
  · intro L' s' hL' h' i hi
    exact (Table.stays hs.free hs.tidy hL' h' hi).1

/-- A record registered twice and removed once. -/
theorem ttThreadTable_multiset_twice :
    ∃ (L : Table.TableLog 2 Nat Nat) (s : Table 2 × Option Nat),
      L.map LogEntry.call = [.register (some 5), .register (some 5), .unregister (some 5)] ∧
      L.map LogEntry.val = [.err .success, .err .success, .err .success] ∧
      s.1.used + (Table.removed L).card = (Table.added L).card := by
  obtain ⟨es₁, s₁, es₂, s₂, es₃, s₃, h₁, h₂, h₃⟩ : ∃ es₁ s₁ es₂ s₂ es₃ s₃,
      (tableSys 2 id Nat).Run 0 ((tableSys 2 id Nat).body (.register (some 5))) (.zero 2, none) es₁
        (TableVal.err .success) s₁ ∧
      (tableSys 2 id Nat).Run 0 ((tableSys 2 id Nat).body (.register (some 5))) s₁ es₂
        (TableVal.err .success) s₂ ∧
      (tableSys 2 id Nat).Run 0 ((tableSys 2 id Nat).body (.unregister (some 5))) s₂ es₃
        (TableVal.err .success) s₃ :=
    ⟨_, _, _, _, _, _, Machine.run_of_eval (List.replicate 5 ()) rfl,
      Machine.run_of_eval (List.replicate 6 ()) rfl, Machine.run_of_eval (List.replicate 6 ()) rfl⟩
  have h₀ : Sequential (tableSys 2 id Nat) (.zero 2, none) [] (.zero 2, none) := .nil
  have h := ((h₀.snoc (e := ⟨0, 0, .register (some 5), es₁, .err .success⟩) h₁).snoc
    (e := ⟨1, 0, .register (some 5), es₂, .err .success⟩) h₂).snoc
    (e := ⟨2, 0, .unregister (some 5), es₃, .err .success⟩) h₃
  refine ⟨_, _, rfl, rfl, (ttThreadTable_multiset ?_ h).2.1⟩
  simp [Table.Edits]

end TinyTools
