/-
The thread table with its mutex linked in.

In either build the table functions do what they do over a mutex that works, and their
calls complete.  A call is as long as the table: it comes to each slot once while it has
the mutex.  It does not wait there, and it does not break off there either: a slot in use
holds a record whenever nobody is in the midst of changing it, so the record that
`tt_thread_table_find_by_handle` looks into is never `NULL`.
-/
import TinyTools.Proofs.ThreadInternal
import TinyTools.Proofs.Mutex.Implement

namespace TinyTools

open Interleave

namespace Table

variable {N : Nat} {H τ : Type} [DecidableEq H] {handleOf : Addr → H} {b : MutexBuild}

/-! ### Calls after the initialisation -/

/-- Clients that do not initialise. -/
def Serving (c : TableCall H) : Prop := c ≠ .init

instance (c : TableCall H) : Decidable (Serving c) := inferInstanceAs (Decidable (_ ≠ _))

theorem within_clearSlots (slots : List (Fin N)) :
    (locking N handleOf τ).Within (clearSlots slots) := by
  induction slots with
  | nil => trivial
  | cons i slots ih => exact ⟨rfl, fun _ => ⟨rfl, fun _ => ih⟩⟩

theorem shape_serving {c : TableCall H} (hc : Serving c) :
    (locking N handleOf τ).Shape .before (tableBody c) := by
  by_cases hcleanup : c = .cleanup
  · subst hcleanup
    simp only [tableBody, ttThreadTableCleanup, Prog.step_bind, Prog.bind_assoc]
    exact shape_section (within_clearSlots _) fun _ => ⟨_, rfl⟩
  · exact shape_body ⟨hc, hcleanup⟩

/-- What `tt_thread_table_init` does once the mutex is there is what a cleanup does. -/
theorem run_cleanup {t : τ} {tab : Table N} {e : TtError} {es : List (tableSig N H).Done}
    {s' : Table N × Option τ}
    (h : (tableSys N handleOf τ).Run t ttThreadTableCleanup (tab, none) es e s') :
    e = .success ∧ s' = (.zero N, none) := by
  have hinit : (tableSys N handleOf τ).Run t ttThreadTableInit (tab, none)
      (⟨.inr (.init (some ())), .success⟩ :: es) e s' := .step () rfl rfl h
  exact run_ttThreadTableInit hinit

theorem run_serving {c : TableCall H} (hc : Serving c) {t : τ} {tab : Table N} {v : TableVal}
    {es : List (tableSig N H).Done} {s' : Table N × Option τ}
    (h : (tableSys N handleOf τ).Run t (tableBody c) (tab, none) es v s') :
    v = (Table.call handleOf c tab).1 ∧ s' = ((Table.call handleOf c tab).2, none) := by
  by_cases hcleanup : c = .cleanup
  · subst hcleanup
    obtain ⟨e, rfl, hrun⟩ := (Machine.run_map_iff tableSys_again).mp h
    obtain ⟨rfl, rfl⟩ := run_cleanup hrun
    exact ⟨rfl, rfl⟩
  · exact run_body ⟨hc, hcleanup⟩ h

theorem sequential_serving {tab : Table N}
    {L : List (LogEntry (tableSig N H) τ (TableCall H) TableVal)} {s : Table N × Option τ}
    (h : Sequential (tableSys N handleOf τ) (tab, none) L s) (hL : ∀ e ∈ L, Serving e.call) :
    L.map LogEntry.val = (Table.calls handleOf (L.map LogEntry.call) tab).1 ∧
      s = ((Table.calls handleOf (L.map LogEntry.call) tab).2, none) := by
  induction h with
  | nil => exact ⟨rfl, rfl⟩
  | @snoc L s s' e _ hrun ih =>
      obtain ⟨hvals, rfl⟩ := ih fun e' he' => hL e' (List.mem_append_left _ he')
      obtain ⟨hval, rfl⟩ := run_serving (hL e (by simp)) hrun
      simp only [List.map_append, List.map_singleton, calls_snoc, hvals, hval, and_self]

/-! ### No call breaks off -/

/-- Every slot in use holds a record. -/
def Full (tab : Table N) : Prop := ∀ i, (tab i).inUse = true → (tab i).thread ≠ none

/-- The table as a call finds it. -/
def Idle (s : Table N × Option τ) : Prop := Full s.1 ∧ s.2 = none

/-- The table between two slots. -/
def Between (t : τ) (s : Table N × Option τ) : Prop := Full s.1 ∧ s.2 = some t

theorem Full.update {tab : Table N} (h : Full tab) {i : Fin N} {e : TtThreadTableEntry}
    (he : e.inUse = true → e.thread ≠ none) : Full (Function.update tab i e) :=
  (Function.forall_update_iff tab fun _ e => e.inUse = true → e.thread ≠ none).mpr
    ⟨he, fun j _ => h j⟩

section Meets

variable {t : τ} {α : Type} {L : List (tableSig N H).Done} {s : Table N × Option τ}

/-- Without breaking off, the program comes from one slot to the next. -/
abbrev Passes (handleOf : Addr → H) (t : τ) (L : List (tableSig N H).Done)
    (m : Prog (tableSig N H) α) (s : Table N × Option τ) : Prop :=
  (tableSys N handleOf τ).Meets t (fun _ _ _ => True) (fun _ _ s' => Between t s') L m s

theorem passes_scan {body : Fin N → Prog (tableSig N H) (Option α)}
    (hbody : ∀ i L s, Between t s → Passes handleOf t L (body i) s) :
    ∀ (slots : List (Fin N)) {L s}, Between t s → Passes handleOf t L (scan body slots) s := by
  intro slots
  induction slots with
  | nil => exact fun h => h
  | cons i slots ih =>
      intro L s h
      refine (hbody i L s h).bind fun L' r s' h' => ?_
      cases r with
      | none => exact ih h'
      | some a => exact h'

theorem passes_registerSlot (thread : Addr) (i : Fin N) (L : List (tableSig N H).Done)
    (s : Table N × Option τ) (h : Between t s) :
    Passes handleOf t L (registerSlot thread i) s := by
  refine (Machine.meets_step_det fun _ => rfl).mpr ⟨trivial, ?_⟩
  cases (s.1 i).inUse with
  | true => exact h
  | false =>
      refine (Machine.meets_step_det fun _ => rfl).mpr ⟨trivial, ?_⟩
      refine (Machine.meets_step_det fun _ => rfl).mpr ⟨trivial, ?_⟩
      refine ⟨?_, h.2⟩
      simp only [Function.update_self, Function.update_idem]
      exact h.1.update fun _ => Option.some_ne_none _

theorem passes_unregisterSlot (thread : Addr) (i : Fin N) (L : List (tableSig N H).Done)
    (s : Table N × Option τ) (h : Between t s) :
    Passes handleOf t L (unregisterSlot thread i) s := by
  refine (Machine.meets_step_det fun _ => rfl).mpr ⟨trivial, ?_⟩
  cases (s.1 i).inUse with
  | false => exact h
  | true =>
      refine (Machine.meets_step_det fun _ => rfl).mpr ⟨trivial, ?_⟩
      by_cases hx : (s.1 i).thread = some thread
      · simp only [if_true, hx]
        refine (Machine.meets_step_det fun _ => rfl).mpr ⟨trivial, ?_⟩
        refine (Machine.meets_step_det fun _ => rfl).mpr ⟨trivial, ?_⟩
        refine ⟨?_, h.2⟩
        simp only [Function.update_self, Function.update_idem]
        exact h.1.update nofun
      · simp only [if_neg hx]
        exact h

/-- What is looked into is a record. -/
theorem passes_findSlot (handle : H) (i : Fin N) (L : List (tableSig N H).Done)
    (s : Table N × Option τ) (h : Between t s) : Passes handleOf t L (findSlot handle i) s := by
  refine (Machine.meets_step_det fun _ => rfl).mpr ⟨trivial, ?_⟩
  rcases hused : (s.1 i).inUse with _ | _
  · exact h
  · obtain ⟨x, hx⟩ := Option.ne_none_iff_exists'.mp (h.1 i hused)
    refine (Machine.meets_step_det fun _ => rfl).mpr ⟨trivial, ?_⟩
    rw [hx]
    refine (Machine.meets_step_det fun _ => rfl).mpr ⟨trivial, ?_⟩
    by_cases hne : handleOf x = handle
    · simp only [hne, ne_eq, not_true, if_false]
      exact h
    · simp only [hne, ne_eq, not_false_eq_true, if_true]
      exact (Machine.meets_step_det fun _ => rfl).mpr ⟨trivial, h⟩

theorem passes_clearSlots (slots : List (Fin N)) :
    ∀ {L s}, Between t s → Passes handleOf t L (clearSlots slots) s := by
  induction slots with
  | nil => exact fun h => h
  | cons i slots ih =>
      intro L s h
      refine (Machine.meets_step_det fun _ => rfl).mpr ⟨trivial, ?_⟩
      refine (Machine.meets_step_det fun _ => rfl).mpr ⟨trivial, ih ?_⟩
      refine ⟨?_, h.2⟩
      simp only [Function.update_self, Function.update_idem]
      exact h.1.update nofun

/-- Lock, come past the slots, unlock. -/
theorem idles_section {β : Type} {m : Prog (tableSig N H) α} {f : α → Prog (tableSig N H) β}
    (h : Idle s) (hm : ∀ {L s}, Between t s → Passes handleOf t L m s)
    (hf : ∀ a, ∃ v, f a = .step (.inr (.unlock (some ()))) fun _ => .ret v) :
    (tableSys N handleOf τ).Meets t (fun _ _ _ => True) (fun _ _ s' => Idle s') L
      (.step (.inr (.lock (some ()))) fun _ => m >>= f) s := by
  obtain ⟨tab, _⟩ := s
  obtain ⟨hfull, rfl⟩ := h
  refine (Machine.meets_step_det fun _ => rfl).mpr ⟨trivial, ?_⟩
  refine (hm (s := (tab, some t)) ⟨hfull, rfl⟩).bind ?_
  rintro L' a s' ⟨hfull', -⟩
  obtain ⟨v, hv⟩ := hf a
  rw [hv]
  refine (Machine.meets_step_det fun _ => rfl).mpr ⟨trivial, ?_⟩
  exact ⟨hfull', rfl⟩

end Meets

/-- Alone no function gets stuck, and each leaves the table as it should be found. -/
theorem steady : Locking.Steady (tableSys N handleOf τ) Serving Idle := by
  intro t c s hc h
  cases c with
  | init => exact absurd rfl hc
  | cleanup =>
      simp only [tableSys, tableBody, ttThreadTableCleanup, Prog.step_bind, Prog.bind_assoc]
      exact idles_section h (passes_clearSlots _) fun _ => ⟨_, rfl⟩
  | register x =>
      rcases x with _ | x
      · exact h
      · simp only [tableSys, tableBody, ttThreadTableRegister, Prog.step_bind, Prog.bind_assoc]
        exact idles_section h (passes_scan (passes_registerSlot x) _) fun _ => ⟨_, rfl⟩
  | unregister x =>
      rcases x with _ | x
      · exact h
      · simp only [tableSys, tableBody, ttThreadTableUnregister, Prog.step_bind, Prog.bind_assoc]
        exact idles_section h (passes_scan (passes_unregisterSlot x) _) fun _ => ⟨_, rfl⟩
  | findByHandle handle =>
      simp only [tableSys, tableBody, ttThreadTableFindByHandle, Prog.step_bind, Prog.bind_assoc]
      exact idles_section h (passes_scan (passes_findSlot handle) _) fun _ => ⟨_, rfl⟩

/-! ### Calls are short -/

/-- Slots, records, lock and unlock. -/
def Serves : (tableSig N H).Op → Prop := Levels.Uses Lock.Locks

omit [DecidableEq H] in
theorem Serves.uses (p : (tableSig N H).Op) (hp : Serves p) : Levels.Uses (Lock.Use b) p := by
  rcases p with p | p
  · trivial
  · exact Lock.Locks.use hp

/-- Inside a section there are slots and records only. -/
theorem every_within {α : Type} {m : Prog (tableSig N H) α}
    (hm : (locking N handleOf τ).Within m) : m.Every Serves := by
  induction m with
  | ret a => trivial
  | step p k ih =>
      obtain ⟨hp, hk⟩ := hm
      refine ⟨?_, fun r => ih r (hk r)⟩
      rcases p with p | _ | _ | (_ | m) | (_ | m) | _ | _
      case inl => trivial
      all_goals cases hp

theorem every_section (handleOf : Addr → H) {α β : Type} {m : Prog (tableSig N H) α}
    {f : α → Prog (tableSig N H) β} (hm : (locking N handleOf Unit).Within m)
    (hf : ∀ a, ∃ v, f a = .step (.inr (.unlock (some ()))) fun _ => .ret v) :
    (Prog.step (S := tableSig N H) (.inr (.lock (some ()))) fun _ => m >>= f).Every Serves := by
  refine ⟨Or.inl rfl, fun _ => (every_within hm).bind fun a => ?_⟩
  obtain ⟨v, hv⟩ := hf a
  rw [hv]
  exact ⟨Or.inr rfl, fun _ => trivial⟩

omit [DecidableEq H] in
theorem short_scan {α : Type} {body : Fin N → Prog (tableSig N H) (Option α)} {n : Nat}
    (hbody : ∀ i, (body i).Short n) (slots : List (Fin N)) :
    (scan body slots).Short (slots.length * n) := by
  induction slots with
  | nil => trivial
  | cons i slots ih =>
      rw [List.length_cons, Nat.succ_mul, Nat.add_comm]
      refine Prog.Short.bind (fun found => ?_) (hbody i)
      cases found with
      | none => exact ih
      | some a => trivial

omit [DecidableEq H] in
theorem short_clearSlots (slots : List (Fin N)) :
    (clearSlots (H := H) slots).Short (slots.length * 4) := by
  induction slots with
  | nil => trivial
  | cons i slots ih =>
      rw [List.length_cons, Nat.succ_mul]
      exact fun _ _ => ih.mono (Nat.le_add_right ..)

omit [DecidableEq H] in
theorem short_registerSlot (thread : Addr) (i : Fin N) :
    (registerSlot (H := H) thread i).Short 4 :=
  fun _ => Prog.short_ite (fun _ _ => trivial) trivial

omit [DecidableEq H] in
theorem short_unregisterSlot (thread : Addr) (i : Fin N) :
    (unregisterSlot (H := H) thread i).Short 4 :=
  fun _ => Prog.short_ite (fun _ => Prog.short_ite (fun _ _ => trivial) trivial) trivial

theorem short_findSlot (handle : H) (i : Fin N) : (findSlot handle i).Short 4 :=
  fun _ => Prog.short_ite (fun _ _ => Prog.short_ite (fun _ => trivial) trivial) trivial

omit [DecidableEq H] in
theorem short_section {α β : Type} {m : Prog (tableSig N H) α} {f : α → Prog (tableSig N H) β}
    (hm : m.Short ((List.finRange N).length * 4))
    (hf : ∀ a, ∃ v, f a = .step (.inr (.unlock (some ()))) fun _ => .ret v) :
    (Prog.step (S := tableSig N H) (.inr (.lock (some ()))) fun _ => m >>= f).Short (N * 4 + 2) := by
  rw [List.length_finRange] at hm
  refine fun _ => Prog.Short.bind (j := 1) (fun a => ?_) hm
  obtain ⟨v, hv⟩ := hf a
  rw [hv]
  exact fun _ => trivial

/-- Of the mutex every function comes to lock and unlock only, and to a slot at most four times. -/
theorem serves_body (handleOf : Addr → H) {c : TableCall H} (hc : Serving c) :
    (tableBody (N := N) c).Every Serves ∧ (tableBody (N := N) c).Short (N * 4 + 2) := by
  cases c with
  | init => exact absurd rfl hc
  | cleanup =>
      simp only [tableBody, ttThreadTableCleanup, Prog.step_bind, Prog.bind_assoc]
      exact ⟨every_section handleOf (within_clearSlots _) fun _ => ⟨_, rfl⟩,
        short_section (short_clearSlots _) fun _ => ⟨_, rfl⟩⟩
  | register x =>
      rcases x with _ | x
      · exact ⟨trivial, trivial⟩
      · simp only [tableBody, ttThreadTableRegister, Prog.step_bind, Prog.bind_assoc]
        exact ⟨every_section handleOf (within_scan (within_registerSlot x) _) fun _ => ⟨_, rfl⟩,
          short_section (short_scan (short_registerSlot x) _) fun _ => ⟨_, rfl⟩⟩
  | unregister x =>
      rcases x with _ | x
      · exact ⟨trivial, trivial⟩
      · simp only [tableBody, ttThreadTableUnregister, Prog.step_bind, Prog.bind_assoc]
        exact ⟨every_section handleOf (within_scan (within_unregisterSlot x) _) fun _ => ⟨_, rfl⟩,
          short_section (short_scan (short_unregisterSlot x) _) fun _ => ⟨_, rfl⟩⟩
  | findByHandle handle =>
      simp only [tableBody, ttThreadTableFindByHandle, Prog.step_bind, Prog.bind_assoc]
      exact ⟨every_section handleOf (within_scan (within_findSlot handle) _) fun _ => ⟨_, rfl⟩,
        short_section (short_scan (short_findSlot handle) _) fun _ => ⟨_, rfl⟩⟩

theorem uses_body (handleOf : Addr → H) {c : TableCall H} (hc : Serving c) :
    (tableBody (N := N) c).Every (Levels.Uses (Lock.Use b)) :=
  (serves_body handleOf hc).1.mono Serves.uses

/-! ### The linked table -/

/-- The mutex below the table. -/
abbrev linkLevels (b : MutexBuild) (p : Addr) (N : Nat) (handleOf : Addr → H) (τ : Type) :=
  (Lock.levels b p τ).beside (tableMachine N handleOf τ Unit) (tableMachine N handleOf τ Unit)

/-- A `tt_thread_table_init` that succeeds leaves a cleared table and a free mutex. -/
theorem linked_rel {t : τ} {s s₀ : Table N × b.State τ}
    (hinit : ((tableMachine N handleOf τ b.Choice).sum (b.sure τ)).Returns t
      (ttThreadTableInit.link b.mutex) s .success s₀) :
    ∃ p, (linkLevels b p N handleOf τ).rel (.zero N, none) s₀ := by
  obtain ⟨e, m, hmutex, hrest⟩ := Machine.returns_link_inr hinit
  by_cases he : e = .success
  · subst he
    obtain ⟨p, hp⟩ := Lock.standsFor_init hmutex.of_under
    have hserves : (ttThreadTableCleanup (N := N) (H := H)).Every Serves :=
      every_section handleOf (within_clearSlots _) fun _ => ⟨_, rfl⟩
    have hrest : ((tableMachine N handleOf τ b.Choice).sum (b.sure τ)).Returns t
        (ttThreadTableCleanup.link b.mutex) (s.1, m) .success s₀ := hrest
    have hrest : (linkLevels b p N handleOf τ).lower.Returns t (ttThreadTableCleanup.link b.mutex)
        (s.1, m) .success s₀ := by
      refine hrest.of_exec (P := Levels.Uses (Lock.OnLock b)) ?_ ?_
        (hserves.link (fun _ _ => trivial) fun _ => Lock.every_onLock)
      · rintro x (q | q) c r c' hq hexec
        · exact ⟨(), hexec⟩
        · obtain ⟨rs, hrs, heq⟩ := Option.map_eq_some_iff.mp hexec
          rw [Lock.exec_onLock hq] at hrs
          exact ⟨(), Option.map_eq_some_iff.mpr ⟨rs, hrs, heq⟩⟩
      · rintro (q | q) r
        · rfl
        · rfl
    rw [Prog.link_eq_handle] at hrest
    have hrel : (linkLevels b p N handleOf τ).rel (s.1, none) (s.1, m) := ⟨rfl, hp⟩
    obtain ⟨s', ⟨es, hrun⟩, hrel⟩ := (Lock.implements b p (tableMachine N handleOf τ Unit)).returns
      (hserves.mono Serves.uses) hrel hrest
    obtain ⟨-, rfl⟩ := run_cleanup hrun
    exact ⟨p, hrel⟩
  · simp only [ne_eq, he, not_false_eq_true, if_true] at hrest
    exact absurd (Machine.returns_ret_iff.mp hrest).1 he

/-- The calls of `L`, made one after the other on a cleared table, explain what is seen of the calls
in `tr`. -/
structure Explains (handleOf : Addr → H) (tr : List (Event (tableOpSig N H) τ (TableCall H) TableVal))
    (calls : τ → Option (Nat × TableCall H))
    (L : List (LogEntry (tableSig N H) τ (TableCall H) TableVal)) : Prop
    extends Orders tr calls L where
  values : L.map LogEntry.val = (Table.calls handleOf (L.map LogEntry.call) (.zero N)).1
  /-- A completed call did to the slots what it did in `L`, or it was given `NULL` and did nothing. -/
  returned : ∀ id t c a, .ret id t c a ∈ tr → (∃ e ∈ L, e.id = id ∧ e.thread = t ∧ e.call = c ∧
    e.val = a ∧ e.done.filterMap own = prims tr id) ∨
    ((c = .register none ∨ c = .unregister none) ∧ a = .err .nullPointer ∧ prims tr id = [])

/-- A call that comes to no primitive was given `NULL`. -/
theorem null_of_serving {c : TableCall H} (hc : Serving c) {t : τ} {tab : Table N} {v : TableVal}
    (h : (tableSys N handleOf τ).Run t (tableBody c) (tab, none) [] v (tab, none)) :
    (c = .register none ∨ c = .unregister none) ∧ v = .err .nullPointer := by
  by_cases hcleanup : c = .cleanup
  · subst hcleanup
    simp [tableBody, ttThreadTableCleanup] at h
  · exact null_of_no_prims ⟨hc, hcleanup⟩ h

/-- Over a mutex that works, calls are explained, and while it is free so is the table. -/
theorem explains [DecidableEq τ]
    {pl : Pool (tableSig N H) τ (Table N × Option τ) (TableCall H) TableVal}
    (h : (tableSys N handleOf τ).Reach (fun _ _ c => Serving c) (.zero N, none) pl) :
    ∃ L, Explains handleOf (seen own pl.view.trace) pl.view.calls L ∧ (pl.view.shared.2 = none →
      pl.view.shared.1 = (Table.calls handleOf (L.map LogEntry.call) (.zero N)).2) := by
  obtain ⟨L, s', hlin, -, hfree, hdone⟩ := Locking.linearizable (K := locking N handleOf τ) trivial
    rfl (fun _ _ _ hc => shape_serving hc) h
  have hserving : ∀ id t c, .call id t c ∈ pl.view.trace → Serving c :=
    h.call_mem (P := Serving) fun _ _ _ hc => hc
  obtain ⟨hvals, rfl⟩ :=
    sequential_serving hlin.legal fun e he => hserving _ _ _ (hlin.called e he)
  refine ⟨L, ⟨hlin.orders hdone, hvals, ?_⟩, fun hlock => congrArg Prod.fst (hfree hlock).1⟩
  intro id t c a hret
  have hret := ret_mem_seen.mp hret
  rw [prims_seen]
  rcases hlin.returned id t c a hret with hmem | ⟨hnone, hrun⟩
  · exact Or.inl ⟨_, hmem, rfl, rfl, rfl, rfl, rfl⟩
  · -- no primitive of these functions is free
    have hprims : prims pl.view.trace id = [] := by
      refine List.eq_nil_iff_forall_not_mem.mpr fun d hd => ?_
      have hkind := hnone d hd
      rcases d with ⟨p | _ | _ | (_ | m) | (_ | m) | _ | _, r⟩ <;> cases hkind
    rw [hprims] at hrun ⊢
    obtain ⟨hc, ha⟩ :=
      null_of_serving (hserving _ _ _ (h.books.ret_called id t c a hret)) (hrun (.zero N, none) trivial)
    exact Or.inr ⟨hc, ha, rfl⟩

/-- What over the mutex of a build is a run over a mutex that works. -/
theorem matched [DecidableEq τ] {t₀ : τ} {s s₀ : Table N × b.State τ}
    (hinit : ((tableMachine N handleOf τ b.Choice).sum (b.sure τ)).Returns t₀
      (ttThreadTableInit.link b.mutex) s .success s₀)
    {pl : Pool ((tableOpSig N H).sum b.sig) τ (Table N × b.State τ) (TableCall H) TableVal}
    (h : (b.linking (tableMachine N handleOf τ Unit) tableBody).Reach (fun _ _ c => Serving c) s₀ pl) :
    ∃ p pa, (tableSys N handleOf τ).Reach (fun _ _ c => Serving c) (.zero N, none) pa ∧
      (Lock.implements b p (tableMachine N handleOf τ Unit)).Matches pa pl := by
  obtain ⟨p, hrel⟩ := linked_rel hinit
  have h : ((linkLevels b p N handleOf τ).below fun c => (tableBody c).link b.mutex).Reach
      (promise own fun _ _ c => Serving c) s₀ pl := h
  obtain ⟨pa, hpa, hm⟩ := (Lock.implements b p (tableMachine N handleOf τ Unit)).refines
    (f := tableBody) (fun _ _ c _ => Prog.link_eq_handle b.mutex (tableBody c))
    (fun _ _ _ => uses_body handleOf) hrel h
  exact ⟨p, pa, hpa, hm⟩

/-- The initialisation of a table of two slots, in either build. -/
theorem initialises : (((tableMachine 2 id Nat Unit).sum ((MutexBuild.generic 7).sure Nat)).eval 0
      (List.replicate 10 ()) (ttThreadTableInit.link spinMutex)
      (.zero 2, fun _ => ⟨fun _ => 3, false⟩)).isSome = true ∧
    (((tableMachine 2 id Nat LinuxChoice).sum (MutexBuild.linux.sure Nat)).eval 0
      (.addr 10 :: List.replicate 13 .ok) (ttThreadTableInit.link linuxMutex)
      (.zero 2, .zero)).isSome = true := ⟨rfl, rfl⟩

/-- What it leaves. -/
def spinBegun : Table 2 × (MutexBuild.generic 7).State Nat := (Option.get _ initialises.1).2.2

def linuxBegun : Table 2 × MutexBuild.linux.State Nat := (Option.get _ initialises.2).2.2

end Table

/--
**The thread table is linearizable in either build.** After a `tt_thread_table_init` that
succeeded, let threads register, unregister, look up and clean up, down to the steps of the
mutex that the build has, in any interleaving.  One order of the calls, made on the table as
a value, explains what they return and do to the slots, and while the mutex is free it
explains the table.
-/
theorem ttThreadTable_linked_linearizable (b : MutexBuild) {N : Nat} {H τ : Type} [DecidableEq H]
    [DecidableEq τ] {handleOf : Addr → H} {t₀ : τ} {s s₀ : Table N × b.State τ}
    (hinit : ((tableMachine N handleOf τ b.Choice).sum (b.sure τ)).Returns t₀
      (ttThreadTableInit.link b.mutex) s .success s₀)
    {pl : Pool ((tableOpSig N H).sum b.sig) τ (Table N × b.State τ) (TableCall H) TableVal}
    (h : (b.linking (tableMachine N handleOf τ Unit) tableBody).Reach
      (fun _ _ c => Table.Serving c) s₀ pl) :
    ∃ L : List (LogEntry (tableSig N H) τ (TableCall H) TableVal),
      Table.Explains handleOf (seen own pl.view.trace) pl.view.calls L ∧
      ((∃ p, Lock.StandsFor b p none pl.view.shared.2) →
        pl.view.shared.1 = (Table.calls handleOf (L.map LogEntry.call) (.zero N)).2) := by
  obtain ⟨p, pa, hpa, hm⟩ := Table.matched hinit h
  obtain ⟨L, hL, htable⟩ := Table.explains hpa
  rw [show seen own pa.view.trace = seen own pl.view.trace from hm.seen, hm.calls] at hL
  refine ⟨L, hL, ?_⟩
  rintro ⟨p', hfree⟩
  rw [← hm.rel.1]
  exact htable (Lock.standsFor_free hm.rel.2 hfree)

/-- Over the spinlock one thread registers a record while another one spins, and then finds it. -/
theorem ttThreadTable_linked_linearizable_spinning :
    ∃ pl, ((MutexBuild.generic 7).linking (tableMachine 2 id Nat Unit) tableBody).Reach
        (fun _ _ c => Table.Serving c) Table.spinBegun pl ∧
      ∃ L : List (LogEntry (tableSig 2 Nat) Nat (TableCall Nat) TableVal),
        Table.Explains id (seen own pl.view.trace) pl.view.calls L ∧
        pl.view.shared.1 = (Table.calls id (L.map LogEntry.call) (.zero 2)).2 ∧
        ∃ e ∈ L, e.call = .findByHandle 6 ∧ e.val = .thread (some 5) := by
  have hinit : ((tableMachine 2 id Nat Unit).sum ((MutexBuild.generic 7).sure Nat)).Returns 0
      (ttThreadTableInit.link spinMutex) (.zero 2, fun _ => ⟨fun _ => 3, false⟩) .success
      Table.spinBegun :=
    ⟨_, Machine.run_of_eval (List.replicate 10 ()) (Option.some_get Table.initialises.1).symm⟩
  have hrun : (((MutexBuild.generic 7).linking (tableMachine 2 id Nat Unit) tableBody).run
      (fun _ _ c => Table.Serving c) ([.call 0 (.register (some 5)), .call 1 (.findByHandle 6)] ++
        List.replicate 4 (.prim 0 ()) ++ List.replicate 4 (.prim 1 ()) ++
        List.replicate 3 (.prim 0 ()) ++ List.replicate 7 (.prim 1 ()) ++ [.ret 1, .ret 0])
      (Sys.start Table.spinBegun)).isSome = true := rfl
  have hreach := Sys.Reach.run _ .start (Option.some_get hrun).symm
  obtain ⟨L, hL, htable⟩ := ttThreadTable_linked_linearizable (.generic 7) hinit hreach
  obtain ⟨e, he, -, -, hc, hv, -⟩ := (hL.returned 1 1 (.findByHandle 6) (.thread (some 5))
    (List.mem_of_getElem? (i := 9) rfl)).resolve_right nofun
  have hfree : Lock.Spins (none : Option Nat) (Option.get _ hrun).view.shared.2 :=
    Lock.spins_zero (fun | 0 | 1 | 2 | 3 | 4 | 5 | 6 | 7 => rfl) rfl
  exact ⟨_, hreach, L, hL, htable ⟨0, hfree⟩, e, he, hc, hv⟩

/--
**The calls of the thread table complete in either build.** After a `tt_thread_table_init`
that succeeded, in whatever state the threads are that register, unregister, look up and
clean up: without further calls they get on at most `12 * N + 7` times for each call in
progress, and as long as one is in progress one of them can.  None breaks off at a record
that is `NULL`.
-/
theorem ttThreadTable_linked_completes (b : MutexBuild) {N : Nat} {H τ : Type} [DecidableEq H]
    [DecidableEq τ] {handleOf : Addr → H} {t₀ : τ} {s s₀ : Table N × b.State τ}
    (hinit : ((tableMachine N handleOf τ b.Choice).sum (b.sure τ)).Returns t₀
      (ttThreadTableInit.link b.mutex) s .success s₀)
    {pl : Pool ((tableOpSig N H).sum b.sig) τ (Table N × b.State τ) (TableCall H) TableVal}
    (h : (b.linking (tableMachine N handleOf τ Unit) tableBody).Reach
      (fun _ _ c => Table.Serving c) s₀ pl) :
    (b.linking (tableMachine N handleOf τ Unit) tableBody).Completes (12 * N + 7) pl ∧
      ∃ pl', (b.linking (tableMachine N handleOf τ Unit) tableBody).Calm pl pl' ∧
        ∀ t, pl'.view.calls t = none := by
  obtain ⟨p, hrel⟩ := Table.linked_rel hinit
  have hshort : ∀ c : TableCall H, Table.Serving c →
      ((tableBody (N := N) c).link b.mutex).Short (12 * N + 6) := by
    intro c hc
    have hlinked := Prog.Short.link (n := 2) (fun _ hp => Lock.short_mutex hp)
      (Table.uses_body (N := N) (b := b) handleOf hc) (Table.serves_body handleOf hc).2
    exact hlinked.mono (by omega)
  have hidle : Table.Idle ((Table.zero N, none) : Table N × Option τ) := ⟨nofun, rfl⟩
  have h : ((Table.linkLevels b p N handleOf τ).below fun c => (tableBody c).link b.mutex).Reach
      (promise own fun _ _ c => Table.Serving c) s₀ pl := h
  have hcompletes := (Lock.implements b p (tableMachine N handleOf τ Unit)).completes
    (f := tableBody) Lock.implements_live (fun _ _ c _ => Prog.link_eq_handle b.mutex (tableBody c))
    (fun _ _ _ => Table.uses_body handleOf) (fun _ _ c hc => hshort c hc) hrel
    (fun pa t hpa => Locking.moves (K := Table.locking N handleOf τ) Table.steady
      Table.tableSys_again (fun _ _ _ hc => hc) hidle trivial rfl
      (fun _ _ _ hc => Table.shape_serving hc) hpa) h
  exact ⟨hcompletes, hcompletes.ends⟩

/-- On Linux one thread looks into a record and another one waits to clean up. -/
theorem ttThreadTable_linked_completes_waiting :
    ∃ pl, (MutexBuild.linux.linking (tableMachine 2 id Nat Unit) tableBody).Reach
        (fun _ _ c => Table.Serving c) Table.linuxBegun pl ∧
      pl.view.calls 0 = some (1, .findByHandle 5) ∧ pl.view.calls 1 = some (2, .cleanup) ∧
      (MutexBuild.linux.linking (tableMachine 2 id Nat Unit) tableBody).step (.prim 1 ()) pl = none ∧
      ∃ pl', (MutexBuild.linux.linking (tableMachine 2 id Nat Unit) tableBody).Calm pl pl' ∧
        ∀ t, pl'.view.calls t = none := by
  have hinit : ((tableMachine 2 id Nat LinuxChoice).sum (MutexBuild.linux.sure Nat)).Returns 0
      (ttThreadTableInit.link linuxMutex) (.zero 2, .zero) .success Table.linuxBegun :=
    ⟨_, Machine.run_of_eval (.addr 10 :: List.replicate 13 .ok)
      (Option.some_get Table.initialises.2).symm⟩
  have hrun : ((MutexBuild.linux.linking (tableMachine 2 id Nat Unit) tableBody).run
      (fun _ _ c => Table.Serving c) (.call 0 (.register (some 5)) ::
        List.replicate 9 (.prim 0 ()) ++ [.ret 0, .call 0 (.findByHandle 5)] ++
        List.replicate 5 (.prim 0 ()) ++ .call 1 .cleanup :: List.replicate 2 (.prim 1 ()))
      (Sys.start Table.linuxBegun)).isSome = true := rfl
  have hreach := Sys.Reach.run _ .start (Option.some_get hrun).symm
  exact ⟨_, hreach, rfl, rfl, rfl, (ttThreadTable_linked_completes .linux hinit hreach).2⟩

end TinyTools
