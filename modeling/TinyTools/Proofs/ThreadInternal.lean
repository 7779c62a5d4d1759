/-
The thread table is linearizable.

Every table function takes the mutex first and releases it last, and what it does in
between is a scan that stops at the first slot of some kind and changes that slot only.
Run alone, it is the function of `Table` that finds the slot and updates it in one go.
With `Lib/Locked.lean` that is all there is to show: however the scans interleave, the
values returned and the table left are those of the calls made one after the other in
the order in which they took the mutex.
-/
import TinyTools.Lib.Linearize
import TinyTools.ThreadInternal

namespace TinyTools

open Interleave

namespace Table

variable {N : Nat} {H τ : Type} [DecidableEq H] {handleOf : Addr → H}

/-! ### The locking discipline -/

/-- How the primitives of the table functions stand to `g_thread_table_mutex`. -/
def kind : (tableSig N H).Op → LockKind
  | .inl _ => .inside
  | .inr (.lock (some _)) => .acquire
  | .inr (.unlock (some _)) => .release
  | .inr _ => .never

def locking (N : Nat) (handleOf : Addr → H) (τ : Type) :
    Locking (tableSys N handleOf τ).toMachine where
  kind := kind
  holder s := s.2
  stable _ := True
  ans _ _ := True
  sound := by
    intro x t p s r s' _ _ _
    rcases p with p | p
    · exact ⟨trivial, trivial, rfl⟩
    · exact ⟨trivial, trivial, rfl⟩
  free := by
    intro p t hp
    rcases p with p | _ | _ | (_ | m) | (_ | m) | _ | _ <;> cases hp
  acquire := by
    intro x t p s r s' hp hexec
    rcases p with p | _ | _ | (_ | m) | (_ | m) | _ | _
    all_goals try cases hp
    rcases s with ⟨s, _ | u⟩
    · cases hexec
      exact ⟨rfl, rfl⟩
    · cases hexec
  inside := by
    intro x t p s r s' hp hexec
    rcases p with p | _ | _ | (_ | m) | (_ | m) | _ | _
    · obtain ⟨rs, -, hrs⟩ := Option.map_eq_some_iff.mp hexec
      cases hrs
      rfl
    all_goals cases hp
  release := by
    intro x t p s r s' hp hexec _
    rcases p with p | _ | _ | (_ | m) | (_ | m) | _ | _
    all_goals try cases hp
    cases hexec
    rfl

@[simp] theorem locking_kind (p : (tableSig N H).Op) : (locking N handleOf τ).kind p = kind p := rfl

/-- Clients that neither initialise nor clean up. -/
def Using (c : TableCall H) : Prop := c ≠ .init ∧ c ≠ .cleanup

instance (c : TableCall H) : Decidable (Using c) := inferInstanceAs (Decidable (_ ∧ _))

theorem within_scan {α : Type} {body : Fin N → Prog (tableSig N H) (Option α)}
    (hbody : ∀ i, (locking N handleOf τ).Within (body i)) (slots : List (Fin N)) :
    (locking N handleOf τ).Within (scan body slots) := by
  induction slots with
  | nil => trivial
  | cons i slots ih =>
      refine (hbody i).seq ?_
      intro a
      cases a with
      | none => exact ih
      | some a => trivial

theorem within_registerSlot (thread : Addr) (i : Fin N) :
    (locking N handleOf τ).Within (registerSlot thread i) := by
  refine ⟨rfl, ?_⟩
  intro inUse
  cases inUse with
  | false => exact ⟨rfl, fun _ => ⟨rfl, fun _ => trivial⟩⟩
  | true => trivial

theorem within_unregisterSlot (thread : Addr) (i : Fin N) :
    (locking N handleOf τ).Within (unregisterSlot thread i) := by
  refine ⟨rfl, ?_⟩
  intro inUse
  cases inUse with
  | false => trivial
  | true =>
      refine ⟨rfl, ?_⟩
      intro x
      by_cases hx : x = some thread
      · simp only [hx, if_true]
        exact ⟨rfl, fun _ => ⟨rfl, fun _ => trivial⟩⟩
      · simp only [hx, if_false]
        trivial

theorem within_findSlot (handle : H) (i : Fin N) :
    (locking N handleOf τ).Within (findSlot handle i) := by
  refine ⟨rfl, ?_⟩
  intro inUse
  cases inUse with
  | false => trivial
  | true =>
      refine ⟨rfl, fun x => ⟨rfl, ?_⟩⟩
      intro h
      by_cases hne : h = handle
      · simp [hne, Locking.Within]
      · simp only [ne_eq, hne, not_false_eq_true, if_true]
        exact ⟨rfl, fun _ => trivial⟩

/-- Lock, a program that stays within the section, unlock, a value. -/
theorem shape_section {α β : Type} {m : Prog (tableSig N H) α} {f : α → Prog (tableSig N H) β}
    (hm : (locking N handleOf τ).Within m)
    (hf : ∀ a, ∃ v, f a = .step (.inr (.unlock (some ()))) fun _ => .ret v) :
    (locking N handleOf τ).Shape .before (.step (.inr (.lock (some ()))) fun _ => m >>= f) := by
  refine ⟨.inside, rfl, fun _ _ => hm.bind ?_⟩
  intro a
  obtain ⟨v, hv⟩ := hf a
  rw [hv]
  exact ⟨.after, rfl, fun _ _ => Phase.noConfusion⟩

/-- Every function in `Using` has one critical section, or returns at once. -/
theorem shape_body {c : TableCall H} (hc : Using c) :
    (locking N handleOf τ).Shape .before (tableBody c) := by
  cases c with
  | init => exact absurd rfl hc.1
  | cleanup => exact absurd rfl hc.2
  | register x =>
      rcases x with _ | x
      · exact Phase.noConfusion
      · simp only [tableBody, ttThreadTableRegister, Prog.step_bind, Prog.bind_assoc]
        exact shape_section (within_scan (within_registerSlot x) _) fun r => ⟨_, rfl⟩
  | unregister x =>
      rcases x with _ | x
      · exact Phase.noConfusion
      · simp only [tableBody, ttThreadTableUnregister, Prog.step_bind, Prog.bind_assoc]
        exact shape_section (within_scan (within_unregisterSlot x) _) fun r => ⟨_, rfl⟩
  | findByHandle h =>
      simp only [tableBody, ttThreadTableFindByHandle, Prog.step_bind, Prog.bind_assoc]
      exact shape_section (within_scan (within_findSlot h) _) fun r => ⟨_, rfl⟩

/-! ### Running alone -/

theorem tableSys_again (p : (tableSig N H).Op) (r : (tableSig N H).Res p) :
    (tableSys N handleOf τ).again p r = false := by
  rcases p with p | p
  · rfl
  · rfl

section Runs

variable {α : Type} {t : τ} {s s' : Table N × Option τ} {es : List (tableSig N H).Done} {a : α}

@[simp] theorem run_readInUse {i : Fin N} {k : Bool → Prog (tableSig N H) α} :
    (tableSys N handleOf τ).Run t (.step (.inl (.readInUse i) : TableOp N ⊕ MutexCall Unit) k)
        s es a s' ↔
      ∃ es₁, es = ⟨.inl (.readInUse i), (s.1 i).inUse⟩ :: es₁ ∧
        (tableSys N handleOf τ).Run t (k (s.1 i).inUse) s es₁ a s' :=
  Machine.run_sum_inl (fun _ => rfl) fun _ => rfl

@[simp] theorem run_writeInUse {i : Fin N} {b : Bool} {k : Unit → Prog (tableSig N H) α} :
    (tableSys N handleOf τ).Run t (.step (.inl (.writeInUse i b) : TableOp N ⊕ MutexCall Unit) k)
        s es a s' ↔
      ∃ es₁, es = ⟨.inl (.writeInUse i b), ()⟩ :: es₁ ∧ (tableSys N handleOf τ).Run t (k ())
        (Function.update s.1 i { s.1 i with inUse := b }, s.2) es₁ a s' :=
  Machine.run_sum_inl (fun _ => rfl) fun _ => rfl

@[simp] theorem run_readThread {i : Fin N} {k : Option Addr → Prog (tableSig N H) α} :
    (tableSys N handleOf τ).Run t (.step (.inl (.readThread i) : TableOp N ⊕ MutexCall Unit) k)
        s es a s' ↔
      ∃ es₁, es = ⟨.inl (.readThread i), (s.1 i).thread⟩ :: es₁ ∧
        (tableSys N handleOf τ).Run t (k (s.1 i).thread) s es₁ a s' :=
  Machine.run_sum_inl (fun _ => rfl) fun _ => rfl

@[simp] theorem run_writeThread {i : Fin N} {x : Option Addr} {k : Unit → Prog (tableSig N H) α} :
    (tableSys N handleOf τ).Run t (.step (.inl (.writeThread i x) : TableOp N ⊕ MutexCall Unit) k)
        s es a s' ↔
      ∃ es₁, es = ⟨.inl (.writeThread i x), ()⟩ :: es₁ ∧ (tableSys N handleOf τ).Run t (k ())
        (Function.update s.1 i { s.1 i with thread := x }, s.2) es₁ a s' :=
  Machine.run_sum_inl (fun _ => rfl) fun _ => rfl

@[simp] theorem run_readHandle {x : Addr} {k : H → Prog (tableSig N H) α} :
    (tableSys N handleOf τ).Run t (.step (.inl (.readHandle (some x)) : TableOp N ⊕ MutexCall Unit) k)
        s es a s' ↔
      ∃ es₁, es = ⟨.inl (.readHandle (some x)), handleOf x⟩ :: es₁ ∧
        (tableSys N handleOf τ).Run t (k (handleOf x)) s es₁ a s' :=
  Machine.run_sum_inl (fun _ => rfl) fun _ => rfl

/-- There is no handle at `NULL`. -/
@[simp] theorem run_readHandle_null {k : H → Prog (tableSig N H) α} :
    ¬ (tableSys N handleOf τ).Run t (.step (.inl (.readHandle none) : TableOp N ⊕ MutexCall Unit) k)
        s es a s' :=
  Machine.run_step_none fun _ => rfl

@[simp] theorem run_init {k : TtError → Prog (tableSig N H) α} :
    (tableSys N handleOf τ).Run t (.step (.inr (.init (some ())) : TableOp N ⊕ MutexCall Unit) k)
        s es a s' ↔
      ∃ es₁, es = ⟨.inr (.init (some ())), .success⟩ :: es₁ ∧
        (tableSys N handleOf τ).Run t (k .success) (s.1, none) es₁ a s' :=
  Machine.run_sum_inr (fun _ => rfl) fun _ => rfl

@[simp] theorem run_lock {tab : Table N} {k : TtError → Prog (tableSig N H) α} :
    (tableSys N handleOf τ).Run t (.step (.inr (.lock (some ())) : TableOp N ⊕ MutexCall Unit) k)
        (tab, none) es a s' ↔
      ∃ es₁, es = ⟨.inr (.lock (some ())), .success⟩ :: es₁ ∧
        (tableSys N handleOf τ).Run t (k .success) (tab, some t) es₁ a s' :=
  Machine.run_sum_inr (fun _ => rfl) fun _ => rfl

@[simp] theorem run_unlock {k : TtError → Prog (tableSig N H) α} :
    (tableSys N handleOf τ).Run t (.step (.inr (.unlock (some ())) : TableOp N ⊕ MutexCall Unit) k)
        s es a s' ↔
      ∃ es₁, es = ⟨.inr (.unlock (some ())), .success⟩ :: es₁ ∧
        (tableSys N handleOf τ).Run t (k .success) (s.1, none) es₁ a s' :=
  Machine.run_sum_inr (fun _ => rfl) fun _ => rfl

/-- A scan stops at the first slot for which its body breaks, if the body leaves the state as it
is where it does not. -/
theorem run_scan {body : Fin N → Prog (tableSig N H) (Option α)} {P : Fin N → Bool}
    {b : Fin N → α} {f : Fin N → Table N × Option τ}
    (hbody : ∀ i es r s', (tableSys N handleOf τ).Run t (body i) s es r s' →
      if P i then r = some (b i) ∧ s' = f i else r = none ∧ s' = s) (slots : List (Fin N)) :
    ∀ {es r s'}, (tableSys N handleOf τ).Run t (scan body slots) s es r s' →
      r = (slots.find? P).map b ∧ s' = ((slots.find? P).map f).getD s := by
  induction slots with
  | nil =>
      intro es r s' h
      obtain ⟨-, rfl, rfl⟩ := Machine.run_ret_iff.mp h
      exact ⟨rfl, rfl⟩
  | cons i slots ih =>
      intro es r s' h
      rw [scan, Machine.run_bind_iff tableSys_again] at h
      obtain ⟨r₁, s₁, es₁, es₂, rfl, hfirst, hrest⟩ := h
      have hi := hbody i es₁ r₁ s₁ hfirst
      by_cases hP : P i = true
      · rw [if_pos hP] at hi
        obtain ⟨rfl, rfl⟩ := hi
        obtain ⟨-, rfl, rfl⟩ := Machine.run_ret_iff.mp hrest
        simp [hP]
      · rw [if_neg hP] at hi
        obtain ⟨rfl, rfl⟩ := hi
        have hi' := ih hrest
        simpa [hP] using hi'

theorem run_registerSlot {x : Addr} {i : Fin N} {r : Option TtError}
    (h : (tableSys N handleOf τ).Run t (registerSlot x i) s es r s') :
    if (!(s.1 i).inUse) = true then
      r = some .success ∧ s' = (Function.update s.1 i ⟨some x, true⟩, s.2)
    else r = none ∧ s' = s := by
  rw [registerSlot, run_readInUse] at h
  obtain ⟨es₁, rfl, h⟩ := h
  split at h
  · rename_i hfree
    rw [if_pos hfree]
    simp only [run_writeThread, run_writeInUse, Machine.run_ret_iff] at h
    obtain ⟨_, rfl, _, rfl, rfl, rfl, rfl⟩ := h
    simp
  · rename_i hused
    rw [if_neg hused]
    obtain ⟨-, rfl, rfl⟩ := Machine.run_ret_iff.mp h
    exact ⟨rfl, rfl⟩

theorem run_unregisterSlot {x : Addr} {i : Fin N} {r : Option TtError}
    (h : (tableSys N handleOf τ).Run t (unregisterSlot x i) s es r s') :
    if s.1.holds x i = true then
      r = some .success ∧ s' = (Function.update s.1 i .zero, s.2)
    else r = none ∧ s' = s := by
  rw [unregisterSlot, run_readInUse] at h
  obtain ⟨es₁, rfl, h⟩ := h
  split at h
  · rename_i hused
    rw [run_readThread] at h
    obtain ⟨es₂, rfl, h⟩ := h
    split at h
    · rename_i hx
      rw [if_pos (by simp [holds, hused, hx])]
      simp only [run_writeThread, run_writeInUse, Machine.run_ret_iff] at h
      obtain ⟨_, rfl, _, rfl, rfl, rfl, rfl⟩ := h
      simp [TtThreadTableEntry.zero]
    · rename_i hx
      rw [if_neg (by simp [holds, hx])]
      obtain ⟨-, rfl, rfl⟩ := Machine.run_ret_iff.mp h
      exact ⟨rfl, rfl⟩
  · rename_i hfree
    rw [if_neg (by simp [holds, hfree])]
    obtain ⟨-, rfl, rfl⟩ := Machine.run_ret_iff.mp h
    exact ⟨rfl, rfl⟩

theorem run_findSlot {handle : H} {i : Fin N} {r : Option (Option Addr)}
    (h : (tableSys N handleOf τ).Run t (findSlot handle i) s es r s') :
    if s.1.differs handleOf handle i = true then r = some (s.1 i).thread ∧ s' = s
    else r = none ∧ s' = s := by
  rw [findSlot, run_readInUse] at h
  obtain ⟨es₁, rfl, h⟩ := h
  split at h
  · rename_i hused
    rw [run_readThread] at h
    obtain ⟨es₂, rfl, h⟩ := h
    rcases hx : (s.1 i).thread with _ | x
    · rw [hx] at h
      exact absurd h run_readHandle_null
    · rw [hx, run_readHandle] at h
      obtain ⟨es₃, rfl, h⟩ := h
      split at h
      · rename_i hne
        rw [if_pos (by simp [differs, hused, hx, hne]), ← hx]
        rw [run_readThread] at h
        obtain ⟨es₄, rfl, h⟩ := h
        obtain ⟨-, rfl, rfl⟩ := Machine.run_ret_iff.mp h
        exact ⟨rfl, rfl⟩
      · rename_i heq
        rw [if_neg (by simpa [differs, hused, hx] using heq)]
        obtain ⟨-, rfl, rfl⟩ := Machine.run_ret_iff.mp h
        exact ⟨rfl, rfl⟩
  · rename_i hfree
    rw [if_neg (by simp [differs, hfree])]
    obtain ⟨-, rfl, rfl⟩ := Machine.run_ret_iff.mp h
    exact ⟨rfl, rfl⟩

theorem run_clearSlots (slots : List (Fin N)) {tab : Table N} {l : Option τ} {u : Unit} :
    ∀ {es s'}, (tableSys N handleOf τ).Run t (clearSlots slots) (tab, l) es u s' →
      s' = ((fun i => if i ∈ slots then .zero else tab i), l) := by
  induction slots generalizing tab with
  | nil =>
      intro es s' h
      obtain ⟨-, -, rfl⟩ := Machine.run_ret_iff.mp h
      simp
  | cons i slots ih =>
      intro es s' h
      simp only [clearSlots, run_writeThread, run_writeInUse] at h
      obtain ⟨_, rfl, _, rfl, h⟩ := h
      rw [ih h]
      refine Prod.ext ?_ rfl
      funext j
      by_cases hj : j ∈ slots
      · simp [hj]
      · by_cases hji : j = i
        · subst hji
          simp [TtThreadTableEntry.zero]
        · simp [hj, hji]

/-- A call that locks, scans and unlocks. -/
theorem run_section {β : Type} {body : Fin N → Prog (tableSig N H) (Option β)} {P : Fin N → Bool}
    {b : Fin N → β} {f : Fin N → Table N × Option τ} {tab : Table N} {g : Option β → α}
    (hbody : ∀ i es r s', (tableSys N handleOf τ).Run t (body i) (tab, some t) es r s' →
      if P i then r = some (b i) ∧ s' = f i else r = none ∧ s' = (tab, some t))
    (h : (tableSys N handleOf τ).Run t (.step (.inr (.lock (some ()))) fun _ =>
      scan body (List.finRange N) >>= fun r =>
      .step (.inr (.unlock (some ()))) fun _ => .ret (g r)) (tab, none) es a s') :
    a = g ((first P).map b) ∧ s' = ((((first P).map f).getD (tab, some t)).1, none) := by
  rw [run_lock] at h
  obtain ⟨es₁, rfl, h⟩ := h
  rw [Machine.run_bind_iff tableSys_again] at h
  obtain ⟨r, s₁, es₂, es₃, rfl, hscan, h⟩ := h
  obtain ⟨rfl, rfl⟩ := run_scan hbody _ hscan
  rw [run_unlock] at h
  obtain ⟨es₄, rfl, h⟩ := h
  obtain ⟨-, rfl, rfl⟩ := Machine.run_ret_iff.mp h
  exact ⟨rfl, rfl⟩

/-- **A table function alone is the function of `Table`**, and it gives the mutex back. -/
theorem run_body {c : TableCall H} (hc : Using c) {tab : Table N} {v : TableVal}
    (h : (tableSys N handleOf τ).Run t (tableBody c) (tab, none) es v s') :
    v = (Table.call handleOf c tab).1 ∧ s' = ((Table.call handleOf c tab).2, none) := by
  cases c with
  | init => exact absurd rfl hc.1
  | cleanup => exact absurd rfl hc.2
  | register x =>
      rcases x with _ | x
      · obtain ⟨-, rfl, rfl⟩ := Machine.run_ret_iff.mp h
        exact ⟨rfl, rfl⟩
      · simp only [tableBody, ttThreadTableRegister, Prog.step_bind, Prog.bind_assoc] at h
        obtain ⟨rfl, rfl⟩ := run_section (fun i es r s' hi => run_registerSlot hi) h
        simp only [call, register]
        rcases first fun i => !(tab i).inUse with _ | i
        · exact ⟨rfl, rfl⟩
        · exact ⟨rfl, rfl⟩
  | unregister x =>
      rcases x with _ | x
      · obtain ⟨-, rfl, rfl⟩ := Machine.run_ret_iff.mp h
        exact ⟨rfl, rfl⟩
      · simp only [tableBody, ttThreadTableUnregister, Prog.step_bind, Prog.bind_assoc] at h
        obtain ⟨rfl, rfl⟩ := run_section (fun i es r s' hi => run_unregisterSlot hi) h
        simp only [call, unregister]
        rcases first (tab.holds x) with _ | i
        · exact ⟨rfl, rfl⟩
        · exact ⟨rfl, rfl⟩
  | findByHandle handle =>
      simp only [tableBody, ttThreadTableFindByHandle, Prog.step_bind, Prog.bind_assoc] at h
      obtain ⟨rfl, rfl⟩ := run_section (f := fun _ => (tab, some t))
        (fun i es r s' hi => run_findSlot hi) h
      simp only [call, findByHandle]
      rcases first (tab.differs handleOf handle) with _ | i
      · exact ⟨rfl, rfl⟩
      · exact ⟨rfl, rfl⟩

/-- An init alone leaves a cleared table and a free mutex. -/
theorem run_ttThreadTableInit {e : TtError}
    (h : (tableSys N handleOf τ).Run t ttThreadTableInit s es e s') :
    e = .success ∧ s' = (.zero N, none) := by
  rw [ttThreadTableInit, run_init] at h
  obtain ⟨es₁, rfl, h⟩ := h
  rw [if_neg (fun hc => hc rfl), run_lock] at h
  obtain ⟨es₂, rfl, h⟩ := h
  rw [Machine.run_bind_iff tableSys_again] at h
  obtain ⟨u, s₁, es₃, es₄, rfl, hclear, h⟩ := h
  rw [run_clearSlots _ hclear, run_unlock] at h
  obtain ⟨es₅, rfl, h⟩ := h
  obtain ⟨-, rfl, rfl⟩ := Machine.run_ret_iff.mp h
  refine ⟨rfl, Prod.ext ?_ rfl⟩
  funext i
  exact if_pos (List.mem_finRange i)

theorem clearSlots_runs (t : τ) (slots : List (Fin N)) (s : Table N × Option τ) :
    ∃ es s', (tableSys N handleOf τ).Run t (clearSlots slots) s es () s' := by
  induction slots generalizing s with
  | nil => exact ⟨[], s, .ret () s⟩
  | cons i slots ih =>
      obtain ⟨es, s', h⟩ := ih (Function.update (Function.update s.1 i { s.1 i with thread := none }) i
        { (Function.update s.1 i { s.1 i with thread := none }) i with inUse := false }, s.2)
      exact ⟨_, s', .step () rfl rfl (.step () rfl rfl h)⟩

/-- An init can always be made. -/
theorem ttThreadTableInit_runs (t : τ) (s : Table N × Option τ) :
    ∃ es, (tableSys N handleOf τ).Run t ttThreadTableInit s es .success (.zero N, none) := by
  obtain ⟨es, s₁, hclear⟩ : ∃ es s', (tableSys N handleOf τ).Run t
      (clearSlots (List.finRange N)) (s.1, some t) es () s' := clearSlots_runs _ _ _
  have hunlock : (tableSys N handleOf τ).Run t
      (.step (.inr (.unlock (some ()))) fun _ => .ret TtError.success) s₁ _ .success (s₁.1, none) :=
    run_unlock.mpr ⟨[], rfl, .ret _ _⟩
  have hend : (tableSys N handleOf τ).Run t (clearSlots (List.finRange N) >>= fun _ =>
      .step (.inr (.unlock (some ()))) fun _ => .ret TtError.success) (s.1, some t) _ TtError.success
      (s₁.1, none) :=
    (Machine.run_bind_iff tableSys_again).mpr ⟨(), s₁, es, _, rfl, hclear, hunlock⟩
  have hrun : (tableSys N handleOf τ).Run t ttThreadTableInit s _ .success (s₁.1, none) :=
    run_init.mpr ⟨_, rfl, run_lock.mpr ⟨_, rfl, hend⟩⟩
  obtain ⟨-, hs⟩ := run_ttThreadTableInit hrun
  rw [hs] at hrun
  exact ⟨_, hrun⟩

end Runs

/-! ### The log -/

theorem calls_snoc (cs : List (TableCall H)) (c : TableCall H) (tab : Table N) :
    Table.calls handleOf (cs ++ [c]) tab
      = ((Table.calls handleOf cs tab).1 ++ [(Table.call handleOf c (Table.calls handleOf cs tab).2).1],
        (Table.call handleOf c (Table.calls handleOf cs tab).2).2) := by
  induction cs generalizing tab with
  | nil => rfl
  | cons c₁ cs ih => simp [Table.calls, ih]

/-- A sequential execution is the calls made on the table as a value. -/
theorem of_sequential {tab : Table N} {L : List (LogEntry (tableSig N H) τ (TableCall H) TableVal)}
    {s : Table N × Option τ} (h : Sequential (tableSys N handleOf τ) (tab, none) L s)
    (hL : ∀ e ∈ L, Using e.call) :
    L.map LogEntry.val = (Table.calls handleOf (L.map LogEntry.call) tab).1 ∧
      s = ((Table.calls handleOf (L.map LogEntry.call) tab).2, none) := by
  induction h with
  | nil => exact ⟨rfl, rfl⟩
  | @snoc L s s' e _ hrun ih =>
      obtain ⟨hvals, rfl⟩ := ih fun e' he' => hL e' (List.mem_append_left _ he')
      obtain ⟨hval, rfl⟩ := run_body (hL e (by simp)) hrun
      rw [List.map_append, List.map_append, List.map_singleton, List.map_singleton, calls_snoc,
        hvals, hval]
      exact ⟨rfl, rfl⟩

/-- A call that never came to the mutex was given `NULL`. -/
theorem null_of_no_prims {c : TableCall H} (hc : Using c) {t : τ} {tab : Table N} {v : TableVal}
    (h : (tableSys N handleOf τ).Run t (tableBody c) (tab, none) [] v (tab, none)) :
    (c = .register none ∨ c = .unregister none) ∧ v = .err .nullPointer := by
  cases c with
  | init => exact absurd rfl hc.1
  | cleanup => exact absurd rfl hc.2
  | register x =>
      rcases x with _ | x
      · obtain ⟨-, rfl, -⟩ := Machine.run_ret_iff.mp h
        exact ⟨Or.inl rfl, rfl⟩
      · simp [tableBody, ttThreadTableRegister] at h
  | unregister x =>
      rcases x with _ | x
      · obtain ⟨-, rfl, -⟩ := Machine.run_ret_iff.mp h
        exact ⟨Or.inr rfl, rfl⟩
      · simp [tableBody, ttThreadTableUnregister] at h
  | findByHandle handle => simp [tableBody, ttThreadTableFindByHandle] at h

end Table

/--
**The thread table is linearizable.** After one `tt_thread_init`, in every
interleaving of registrations, removals and lookups, the calls that have released
the mutex, in the order in which they acquired it, are a sequential execution of
the same functions, which is the calls made one after the other on the table as a
value.  While the mutex is free the table is the one these calls leave.  A call that
returned is among them, unless it was given `NULL` and touched nothing, and only
the holder of the mutex ever accesses a slot.
-/
theorem ttThreadTable_linearizable {N : Nat} {H τ : Type} [DecidableEq H] [DecidableEq τ]
    {handleOf : Addr → H} {t₀ : τ} {s s₀ : Table N × Option τ} {es : List (tableSig N H).Done}
    (hinit : (tableSys N handleOf τ).Run t₀ ttThreadTableInit s es .success s₀)
    {pl : Pool (tableSig N H) τ (Table N × Option τ) (TableCall H) TableVal}
    (h : (tableSys N handleOf τ).Reach (fun _ _ c => Table.Using c) s₀ pl) :
    ∃ L s', Linearizes (tableSys N handleOf τ) (Table.locking N handleOf τ) s₀ pl.view.trace L s' ∧
      L.map LogEntry.val = (Table.calls handleOf (L.map LogEntry.call) (.zero N)).1 ∧
      L.map LogEntry.id <+: acquired (Table.locking N handleOf τ) pl.view.trace ∧
      (pl.view.shared.2 = none →
        acquired (Table.locking N handleOf τ) pl.view.trace = L.map LogEntry.id ∧
        pl.view.shared.1 = (Table.calls handleOf (L.map LogEntry.call) (.zero N)).2) ∧
      (∀ id t c a, .ret id t c a ∈ pl.view.trace → ⟨id, t, c, prims pl.view.trace id, a⟩ ∈ L ∨
        (c = .register none ∨ c = .unregister none) ∧ a = .err .nullPointer ∧
          prims pl.view.trace id = []) ∧
      ∀ t p k, pl.view.calls t ≠ none → pl.prog t = some (.step (.inl p) k) →
        pl.view.shared.2 = some t := by
  obtain ⟨-, rfl⟩ := Table.run_ttThreadTableInit hinit
  have hshape : ∀ (v : View (tableSig N H) τ (Table N × Option τ) (TableCall H) TableVal) (t : τ)
      (c : TableCall H), Table.Using c → (Table.locking N handleOf τ).Shape .before
        ((tableSys N handleOf τ).body c) := fun _ _ _ hc => Table.shape_body hc
  obtain ⟨L, s', hlin, hacq, hfree, -⟩ := Locking.linearizable trivial rfl hshape h
  have husing : ∀ id t c, .call id t c ∈ pl.view.trace → Table.Using c :=
    h.call_mem (P := Table.Using) fun _ _ _ hc => hc
  obtain ⟨hvals, rfl⟩ :=
    Table.of_sequential hlin.legal fun e he => husing _ _ _ (hlin.called e he)
  refine ⟨L, _, hlin, hvals, hacq, ?_, ?_, ?_⟩
  · intro hlock
    obtain ⟨hshared, hids⟩ := hfree hlock
    exact ⟨hids, congrArg Prod.fst hshared⟩
  · intro id t c a hret
    rcases hlin.returned id t c a hret with hmem | ⟨hnone, hrun⟩
    · exact Or.inl hmem
    · -- no primitive of these functions is free
      have hprims : prims pl.view.trace id = [] := by
        refine List.eq_nil_iff_forall_not_mem.mpr fun d hd => ?_
        have hkind := hnone d hd
        rcases d with ⟨p | _ | _ | (_ | m) | (_ | m) | _ | _, r⟩ <;> cases hkind
      rw [hprims] at hrun
      obtain ⟨hc, ha⟩ := Table.null_of_no_prims (husing _ _ _ (h.books.ret_called id t c a hret))
        (hrun (.zero N, none) trivial)
      exact Or.inr ⟨hc, ha, hprims⟩
  · intro t p k hc hp
    exact Locking.holder_of_inside trivial rfl hshape h hc hp (Or.inl rfl)

/-- Two registrations that start together take two slots, in the order of their locks. -/
theorem ttThreadTable_linearizable_two :
    ∃ pl : Pool (tableSig 2 Nat) Nat (Table 2 × Option Nat) (TableCall Nat) TableVal,
      (tableSys 2 id Nat).Reach (fun _ _ c => Table.Using c) (.zero 2, none) pl ∧
      ∃ L : List (LogEntry (tableSig 2 Nat) Nat (TableCall Nat) TableVal),
        L.map LogEntry.id = [0, 1] ∧
        pl.view.shared.1 = (Table.calls id (L.map LogEntry.call) (.zero 2)).2 := by
  obtain ⟨es, hinit⟩ : ∃ es, (tableSys 2 id Nat).Run 0 ttThreadTableInit (.zero 2, none) es
      .success (.zero 2, none) := Table.ttThreadTableInit_runs _ _
  have hrun : ((tableSys 2 id Nat).run (fun _ _ c => Table.Using c)
      [.call 0 (.register (some 5)), .call 1 (.register (some 6)), .prim 0 (), .prim 0 (),
        .prim 0 (), .prim 0 (), .prim 0 (), .prim 1 (), .prim 1 (), .prim 1 (), .prim 1 (),
        .prim 1 (), .prim 1 (), .ret 1, .ret 0] (Sys.start (.zero 2, none))).isSome = true := rfl
  have hreach := Sys.Reach.run _ .start (Option.some_get hrun).symm
  obtain ⟨L, s', -, -, -, hfree, -⟩ := ttThreadTable_linearizable hinit hreach
  obtain ⟨hids, htab⟩ := hfree rfl
  exact ⟨_, hreach, L, hids.symm, htab⟩

end TinyTools
