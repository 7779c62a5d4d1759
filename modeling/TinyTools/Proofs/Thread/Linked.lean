/-
The thread API with its table and the table's mutex linked in.

`threadSys` takes the functions of the thread table for single steps.  They are loops over
slots, under a mutex that is itself a pointer to a pthread object.  That makes two levels
below `threadSys`: on the first one the slots are there and the mutex works, on the second
one the mutex is the one of `tt_platform_linux.c`.  A table function has one critical
section, so the first level does nothing new (`Lib/Section.lean`); nor does the second
(`Proofs/Mutex/Implement.lean`).  So what `threadSys` promises of creates, joins and
destroys it promises of the code down to the steps on the slots and on the object.

This leaves `tt_thread_table_find_by_handle` out.  It reads the records, which their owners
write to without the mutex, and is no single step.
-/
import TinyTools.Lib.Section
import TinyTools.Proofs.Mutex.Implement
import TinyTools.Proofs.Thread.Reap
import TinyTools.Proofs.Thread.Reinit
import TinyTools.Proofs.Thread.Table
import TinyTools.Proofs.ThreadInternal.Linked

namespace TinyTools

open Interleave

namespace ThreadLink

open Lock (Stays)

variable {N : Nat} {H τ : Type}

/-! ### The level between -/

/-- A state with another table. -/
def withTable (s : ThreadState N H) (tab : Table N) : ThreadState N H := { s with table := tab }

@[simp] theorem withTable_self (s : ThreadState N H) : withTable s s.table = s := rfl

@[simp] theorem withTable_table (s : ThreadState N H) (tab : Table N) :
    (withTable s tab).table = tab := rfl

@[simp] theorem withTable_withTable (s : ThreadState N H) (tab tab' : Table N) :
    withTable (withTable s tab) tab' = withTable s tab' := rfl

@[simp] theorem withTable_mem (s : ThreadState N H) (tab : Table N) :
    (withTable s tab).mem = s.mem := rfl

variable [DecidableEq H]

@[simp] theorem withTable_taken (s : ThreadState N H) (tab : Table N) (h : H) :
    (withTable s tab).taken h = s.taken h := rfl

@[simp] theorem withTable_joinable (s : ThreadState N H) (tab : Table N) (h : H) :
    (withTable s tab).joinable h = s.joinable h := rfl

/-- Records and pthreads, the slots of the table, and a mutex that works. -/
def lockedMachine (N : Nat) (H : Type) [DecidableEq H] (τ : Type) :
    Machine ((threadOpSig H).sum (tableSig N (Option H))) τ (ThreadChoice H)
      (ThreadState N H × Option τ) where
  exec x t
    | .inl p, s => (threadOpExec x p s.1).map fun rs => (rs.1, rs.2, s.2)
    | .inr (.inl p), s => (threadTableExec x p s.1).map fun rs => (rs.1, rs.2, s.2)
    | .inr (.inr c), s => (lockExec () t c s.2).map fun rs => (rs.1, s.1, rs.2)

theorem reapExec_withTable (status : OsStatus) (x : ThreadChoice H) (handle : Option H)
    (s : ThreadState N H) (tab : Table N) :
    reapExec status x handle (withTable s tab)
      = ((reapExec status x handle s).1, withTable (reapExec status x handle s).2 tab) := by
  unfold reapExec
  split
  · rename_i h
    rw [withTable_joinable]
    cases s.joinable h <;> rfl
  · rfl

/-- What is done to records and pthreads does not depend on the table. -/
theorem threadOpExec_withTable (x : ThreadChoice H) (p : ThreadOp H) (s : ThreadState N H)
    (tab : Table N) :
    threadOpExec x p (withTable s tab)
      = (threadOpExec x p s).map fun rs => (rs.1, withTable rs.2 tab) := by
  cases p with
  | malloc =>
      cases x with
      | block a r =>
          simp only [threadOpExec, withTable_mem]
          rw [apply_ite (Option.map _)]
          rfl
      | _ => rfl
  | readState a | readIsActive a | readHandle a =>
      simp only [threadOpExec, readExec, withTable_mem]
      rcases s.mem a with _ | r
      · cases x <;> rfl
      · rfl
  | pthreadCreate a n func arg =>
      cases x with
      | handle h =>
          simp only [threadOpExec, withTable_taken]
          rw [apply_ite (Option.map _)]
          rfl
      | _ => rfl
  | pthreadJoin handle | pthreadDetach handle =>
      exact congrArg some (reapExec_withTable _ x handle s tab)
  | pthreadAttrInit | pthreadAttrSetstacksize n => cases x <;> rfl
  | free a | write a w | writeVar w a | pthreadAttrDestroy => rfl

/-! ### The table functions are steps -/

/-- What the thread functions do to the table after its initialisation. -/
def Keeping (H : Type) : TableCall (Option H) → Prop
  | .register (some _) | .unregister (some _) => True
  | .init | .cleanup | .register none | .unregister none | .findByHandle _ => False

/-- Accesses to slots. -/
def Slot : (tableSig N (Option H)).Op → Prop
  | .inl p => ∀ thread, p ≠ .readHandle thread
  | .inr _ => False

/-- Slots, and locking and unlocking. -/
def OnSlots (p : (tableSig N (Option H)).Op) : Prop :=
  Reinit.LocksOnly p ∧ ∀ thread, p ≠ .inl (.readHandle thread)

omit [DecidableEq H] in
theorem Slot.onSlots (p : (tableSig N (Option H)).Op) (hp : Slot p) : OnSlots p := by
  rcases p with p | p
  · exact ⟨trivial, fun thread heq => hp thread (Sum.inl.inj heq)⟩
  · exact hp.elim

omit [DecidableEq H] in
theorem every_scan {α : Type} {body : Fin N → Prog (tableSig N (Option H)) (Option α)}
    (hbody : ∀ i, (body i).Every Slot) (slots : List (Fin N)) : (scan body slots).Every Slot := by
  induction slots with
  | nil => trivial
  | cons i slots ih =>
      refine (hbody i).bind fun found => ?_
      cases found with
      | none => exact ih
      | some a => trivial

omit [DecidableEq H] in
/-- A pass over the slots under the mutex. -/
theorem every_section {α β : Type} {body : Fin N → Prog (tableSig N (Option H)) (Option α)}
    (hbody : ∀ i, (body i).Every Slot) (result : Option α → β) :
    (Prog.step (S := tableSig N (Option H)) (.inr (.lock (some ()))) fun _ =>
      scan body (List.finRange N) >>= fun a =>
      .step (.inr (.unlock (some ()))) fun _ => .ret (result a)).Every OnSlots :=
  ⟨⟨Or.inl rfl, nofun⟩, fun _ => ((every_scan hbody _).mono Slot.onSlots).bind fun _ =>
    ⟨⟨Or.inr rfl, nofun⟩, fun _ => trivial⟩⟩

omit [DecidableEq H] in
theorem every_registerSlot (a : Addr) (i : Fin N) :
    (registerSlot (H := Option H) a i).Every Slot := by
  refine ⟨nofun, fun inUse => Prog.every_ite ?_ trivial⟩
  exact ⟨nofun, fun _ => ⟨nofun, fun _ => trivial⟩⟩

omit [DecidableEq H] in
theorem every_unregisterSlot (a : Addr) (i : Fin N) :
    (unregisterSlot (H := Option H) a i).Every Slot := by
  refine ⟨nofun, fun inUse => Prog.every_ite ⟨nofun, fun thread => ?_⟩ trivial⟩
  exact Prog.every_ite ⟨nofun, fun _ => ⟨nofun, fun _ => trivial⟩⟩ trivial

theorem every_keeping {p : TableCall (Option H)} (hp : Keeping H p) :
    (tableFunction (N := N) p).Every OnSlots := by
  rcases p with _ | _ | (_ | a) | (_ | a) | handle
  case register.some => exact every_section (every_registerSlot a) _
  case unregister.some => exact every_section (every_unregisterSlot a) _
  all_goals exact hp.elim

/-- The table and its mutex, where nobody looks into the records. -/
abbrev tableLocking (N : Nat) (H τ : Type) [DecidableEq H] :=
  Table.locking N (fun _ => (none : Option H)) τ

theorem shape_section {α β : Type} {body : Fin N → Prog (tableSig N (Option H)) (Option α)}
    (hbody : ∀ i, (tableLocking N H τ).Within (body i)) (result : Option α → β) :
    (tableLocking N H τ).Section (Prog.step (S := tableSig N (Option H)) (.inr (.lock (some ())))
      fun _ => scan body (List.finRange N) >>= fun a =>
      .step (.inr (.unlock (some ()))) fun _ => .ret (result a)) :=
  Or.inr ⟨rfl, fun _ _ => (Table.within_scan hbody _).bind fun _ =>
    ⟨.after, rfl, fun _ _ => Phase.noConfusion⟩⟩

theorem shape_keeping {p : TableCall (Option H)} (hp : Keeping H p) :
    (tableLocking N H τ).Section (tableFunction p) := by
  rcases p with _ | _ | (_ | a) | (_ | a) | handle
  case register.some => exact shape_section (Table.within_registerSlot a) _
  case unregister.some => exact shape_section (Table.within_unregisterSlot a) _
  all_goals exact hp.elim

/-- Alone, a function does what `threadSys` takes it to do. -/
theorem run_keeping {p : TableCall (Option H)} {r : p.Res} (hp : Keeping H p) {t : τ}
    {s : ThreadState N H} {es : List (tableSig N (Option H)).Done} {s' : Table N × Option τ}
    (h : (tableSys N (fun _ => (none : Option H)) τ).Run t (tableFunction p) (s.table, none) es r s') :
    ∃ s₁, tableCallExec p s = some (r, s₁) ∧ s' = (s₁.table, none) ∧ s₁ = withTable s s₁.table := by
  have hval : ∀ {c : TableCall (Option H)} {m : Prog (tableSig N (Option H)) TtError} {e : TtError},
      Table.Using c → tableBody c = m.bind (fun e => .ret (.err e)) →
      (tableSys N (fun _ => (none : Option H)) τ).Run t m (s.table, none) es e s' →
      .err e = (Table.call (fun _ => none) c s.table).1 ∧
        s' = ((Table.call (fun _ => none) c s.table).2, none) := by
    intro c m e hc hbody hrun
    have hcall : (tableSys N (fun _ => (none : Option H)) τ).Run t (tableBody c) (s.table, none) es
        (.err e) s' := by
      rw [hbody]
      exact (Machine.run_map_iff Table.tableSys_again).mpr ⟨e, rfl, hrun⟩
    exact Table.run_body hc hcall
  rcases p with _ | _ | (_ | a) | (_ | a) | handle
  case register.some =>
    obtain ⟨hr, rfl⟩ := hval (c := .register (some a)) ⟨nofun, nofun⟩ rfl h
    cases hr
    exact ⟨_, rfl, rfl, rfl⟩
  case unregister.some =>
    obtain ⟨hr, rfl⟩ := hval (c := .unregister (some a)) ⟨nofun, nofun⟩ rfl h
    cases hr
    exact ⟨_, rfl, rfl, rfl⟩
  all_goals exact hp.elim

/-- One step of a table function on the larger state. -/
theorem exec_slots {x : ThreadChoice H} {t : τ} {q : (tableSig N (Option H)).Op}
    {r : (tableSig N (Option H)).Res q} {c c' : ThreadState N H × Option τ} (hq : OnSlots q)
    (hexec : (lockedMachine N H τ).exec x t (.inr q) c = some (r, c')) :
    (∃ y, (tableSys N (fun _ => (none : Option H)) τ).exec y t q (c.1.table, c.2)
      = some (r, c'.1.table, c'.2)) ∧ c'.1 = withTable c.1 c'.1.table := by
  rcases q with p | p
  · obtain ⟨⟨r', s⟩, hs, heq⟩ := Option.map_eq_some_iff.mp hexec
    cases heq
    cases p with
    | readHandle thread => exact absurd rfl (hq.2 thread)
    | readInUse i | writeInUse i b | readThread i | writeThread i thread =>
        cases hs
        exact ⟨⟨(), rfl⟩, rfl⟩
  · obtain ⟨⟨r', h⟩, hh, heq⟩ := Option.map_eq_some_iff.mp hexec
    cases heq
    exact ⟨⟨(), Option.map_eq_some_iff.mpr ⟨_, hh, rfl⟩⟩, rfl⟩

/-- The mutex protects the table, and what is seen is the rest. -/
def guard (N : Nat) (H τ : Type) [DecidableEq H] :
    Guard (threadMachine N H τ) (lockedMachine N H τ) (tableLocking N H τ) (threadOpSig H) where
  same a c := c.1 = withTable a c.1.table
  get c := (c.1.table, c.2)
  free a := (a.table, none)
  holder _ := rfl
  stable _ := trivial
  shown := own
  shown' := own

theorem passes (p : ThreadOp H) : (guard N H τ).Passes (Prog.beside tableFunction) (.inl p) := by
  refine ⟨.inl p, id, rfl, ?_, fun _ => ⟨rfl, rfl⟩⟩
  rintro x t a ⟨s, h⟩ r ⟨s', h'⟩ hsame hexec
  obtain ⟨⟨r', s₁⟩, hs, heq⟩ := Option.map_eq_some_iff.mp hexec
  cases heq
  have hsame : s = withTable a s.table := hsame
  rw [hsame, threadOpExec_withTable] at hs
  obtain ⟨⟨r'', a'⟩, ha, heq⟩ := Option.map_eq_some_iff.mp hs
  cases heq
  exact ⟨rfl, x, a', ha, rfl, congrArg (·, none) (Guarded.threadOpExec_table ha)⟩

theorem enters {p : TableCall (Option H)} (hp : Keeping H p) :
    (guard N H τ).Enters (Prog.beside tableFunction) OnSlots (.inr p) (tableFunction p) where
  program := rfl
  comes := every_keeping hp
  shape := shape_keeping hp
  unseen _ := rfl
  outcome := by
    intro t a es r s hrun
    obtain ⟨a', ha, rfl, hsame⟩ := run_keeping hp hrun
    refine ⟨.ok, a', ha, rfl, rfl, fun c hc => ?_⟩
    rw [hsame]
    exact hc

/-- The table functions have one critical section each. -/
theorem sections (N : Nat) (H τ : Type) [DecidableEq H] :
    Sections (guard N H τ) (Prog.beside tableFunction) (Levels.Uses (Keeping H)) OnSlots where
  step := by
    intro x t q c r c' hq hexec
    obtain ⟨hinner, hrest⟩ := exec_slots hq hexec
    refine ⟨hinner, fun a hsame => ?_⟩
    show c'.1 = _
    rw [hrest, show c.1 = withTable a c.1.table from hsame]
    rfl
  again q r _ := by
    rcases q with q | q
    · rfl
    · rfl
  unseen _ _ _ := rfl
  each := by
    rintro (p | p) hp
    · exact .inl (passes p)
    · exact .inr ⟨tableFunction p, enters hp⟩

/-! ### The mutex of the table is a mutex -/

/-- The pthread mutex at `p` below one that works. -/
def linuxLevels (N : Nat) (H τ : Type) [DecidableEq H] (p : Addr) :
    Levels ((threadOpSig H).sum (tableSig N (Option H))) (threadLinuxSig N H) (threadOpSig H) τ
      (ThreadChoice H) (ThreadChoice H × LinuxChoice) (ThreadState N H × Option τ)
      (ThreadState N H × LinuxMutexes Unit τ) where
  upper := lockedMachine N H τ
  lower := (threadSteadySys N H τ).toMachine
  shown := own
  shown' := own
  rel a c := a.1 = c.1 ∧ Stays p a.2 c.2

theorem exec_onMutex {q : LinuxMutexOp Unit} (hq : Lock.OnLock .linux q)
    (x : ThreadChoice H × LinuxChoice) (t : τ) (c : ThreadState N H × LinuxMutexes Unit τ) :
    (threadSteadySys N H τ).exec x t (.inr (.inr q)) c
      = ((MutexBuild.linux.steady τ).exec () t q c.2).map fun rs => (rs.1, c.1, rs.2) := by
  cases q with
  | readInitialized m | readLock m | pthreadMutexLock m | pthreadMutexUnlock m => rfl
  | _ => exact hq.elim

/-- The mutex, in the state of the thread subsystem. -/
theorem hosts (p : Addr) : (linuxLevels N H τ p).Hosts (Lock.levels .linux p τ) Prod.snd Prod.snd
    (Lock.OnLock .linux) where
  rel h := h.2
  lower := by
    intro x t q c r c' hq hexec
    rw [show (linuxLevels N H τ p).lower = (threadSteadySys N H τ).toMachine from rfl,
      exec_onMutex hq] at hexec
    obtain ⟨rs, hrs, heq⟩ := Option.map_eq_some_iff.mp hexec
    cases heq
    exact ⟨(), hrs⟩
  lower' := by
    intro x t q c r n hq hexec
    refine ⟨(.ok, .ok), (c.1, n), ?_⟩
    rw [show (linuxLevels N H τ p).lower = (threadSteadySys N H τ).toMachine from rfl,
      exec_onMutex hq]
    exact Option.map_eq_some_iff.mpr ⟨_, hexec, rfl⟩
  upper := by
    intro y t q a v a' hexec
    obtain ⟨rs, hrs, heq⟩ := Option.map_eq_some_iff.mp hexec
    cases heq
    exact ⟨(), _, hrs⟩
  later := by
    rintro a x t q c r c' ⟨hsame, -⟩ hexec hrel
    obtain ⟨rs, -, heq⟩ := Option.map_eq_some_iff.mp hexec
    cases heq
    exact ⟨hsame, hrel⟩
  now := by
    rintro a x t q c r c' y q' v n ⟨hsame, -⟩ hexec hy hrel
    obtain ⟨rs, -, heq⟩ := Option.map_eq_some_iff.mp hexec
    cases heq
    exact ⟨.ok, (a.1, n), Option.map_eq_some_iff.mpr ⟨_, hy, rfl⟩, hsame, hrel⟩
  again _ _ := rfl
  again' _ _ := rfl
  shown _ _ := rfl
  shown' _ _ := rfl

/-- Slots, records and pthreads are the same on either level, and the mutex does what a mutex does. -/
theorem linux_waiting (p : Addr) (t : τ) (q : ((threadOpSig H).sum (tableSig N (Option H))).Op)
    (hq : Levels.Uses Reinit.LocksOnly q) :
    (linuxLevels N H τ p).Waiting t q (Prog.beside (Prog.beside linuxMutex) q) := by
  rcases q with q | q | c
  · refine Levels.Waiting.same (D := linuxLevels N H τ p) (p := .inl q) (q := .inl q) (e := id) ?_ ?_
      (fun _ => rfl) fun _ => rfl
    · rintro ⟨s, h⟩ ⟨s', m⟩ x r c' ⟨rfl, hrel⟩ hexec
      obtain ⟨⟨r', s₁⟩, hs, heq⟩ := Option.map_eq_some_iff.mp hexec
      cases heq
      exact ⟨x.1, (s₁, h), Option.map_eq_some_iff.mpr ⟨_, hs, rfl⟩, rfl, hrel⟩
    · rintro ⟨s, h⟩ ⟨s', m⟩ y r' a' ⟨rfl, hrel⟩ hexec
      obtain ⟨⟨r, s₁⟩, hs, heq⟩ := Option.map_eq_some_iff.mp hexec
      cases heq
      exact ⟨(y, .ok), _, (s₁, m), Option.map_eq_some_iff.mpr ⟨_, hs, rfl⟩, rfl⟩
  · refine Levels.Waiting.same (D := linuxLevels N H τ p) (p := .inr (.inl q)) (q := .inr (.inl q))
      (e := id) ?_ ?_ (fun _ => rfl) fun _ => rfl
    · rintro ⟨s, h⟩ ⟨s', m⟩ x r c' ⟨rfl, hrel⟩ hexec
      obtain ⟨⟨r', s₁⟩, hs, heq⟩ := Option.map_eq_some_iff.mp hexec
      cases heq
      exact ⟨x.1, (s₁, h), Option.map_eq_some_iff.mpr ⟨_, hs, rfl⟩, rfl, hrel⟩
    · rintro ⟨s, h⟩ ⟨s', m⟩ y r' a' ⟨rfl, hrel⟩ hexec
      obtain ⟨⟨r, s₁⟩, hs, heq⟩ := Option.map_eq_some_iff.mp hexec
      cases heq
      exact ⟨(y, .ok), _, (s₁, m), Option.map_eq_some_iff.mpr ⟨_, hs, rfl⟩, rfl⟩
  · exact (hosts p).waiting (Lock.every_onLock (b := .linux) hq) (Lock.waiting (Lock.Locks.use hq))

/-- With `g_thread_table_mutex` initialised, nothing is done to it that a mutex would not do. -/
def linuxImplements (N : Nat) (H τ : Type) [DecidableEq H] (p : Addr) :
    Implements (linuxLevels N H τ p) (Prog.beside (Prog.beside linuxMutex))
      (Levels.Uses Reinit.LocksOnly) :=
  Levels.implements _ (linux_waiting p)

/-! ### Initialising -/

/-- A thread function, the table functions and the mutex functions linked in. -/
def linked {α : Type} (m : Prog (threadSig H) α) : Prog (threadLinuxSig N H) α :=
  m.link fun c => (tableFunction c).link linuxMutex

theorem linked_eq {α : Type} (m : Prog (threadSig H) α) :
    linked (N := N) m = (m.link tableFunction).handle (Prog.beside (Prog.beside linuxMutex)) :=
  Prog.link_link (T := tableCallSig (Option H)) (V := tableOpSig N (Option H)) (U := mutexSig Unit)
    tableFunction linuxMutex m

omit [DecidableEq H] in
theorem every_clear (slots : List (Fin N)) : (clearSlots (H := Option H) slots).Every OnSlots := by
  induction slots with
  | nil => trivial
  | cons i slots ih => exact ⟨⟨trivial, nofun⟩, fun _ => ⟨⟨trivial, nofun⟩, fun _ => ih⟩⟩

/-- Alone over a mutex that works, what follows `tt_mutex_init` clears the table. -/
theorem returns_cleanup {t : τ} {s : ThreadState N H} {e : TtError}
    {s' : ThreadState N H × Option τ}
    (h : (lockedMachine N H τ).Returns t (ttThreadTableCleanup.inr) (s, none) e s') :
    s' = (withTable s (.zero N), none) := by
  obtain ⟨es, h⟩ := h
  have hevery : (ttThreadTableCleanup (N := N) (H := Option H)).Every OnSlots :=
    ⟨⟨Or.inl rfl, nofun⟩, fun _ => (every_clear _).bind fun _ =>
      ⟨⟨Or.inr rfl, nofun⟩, fun _ => trivial⟩⟩
  obtain ⟨es', -, hrun, hrest⟩ := Machine.run_inr_of_sim
    (N := (tableSys N (fun _ => (none : Option H)) τ).toMachine) (f := fun c => (c.1.table, c.2))
    (R := fun c c' => c'.1 = withTable c.1 c'.1.table) (fun _ => rfl)
    (fun c₁ c₂ c₃ h₁ h₂ => by rw [h₂, h₁]; rfl) (fun _ _ => rfl) Table.tableSys_again
    (fun x q c r c' hq hexec => exec_slots hq hexec) hevery h
  obtain ⟨-, hs⟩ := Table.run_cleanup hrun
  obtain ⟨htable, hfree⟩ := Prod.mk.inj hs
  refine Prod.ext ?_ hfree
  rw [hrest, htable]

/-- What `tt_mutex_init` does in the linked program it does on its own. -/
theorem returns_mutexInit {t : τ} {s s' : ThreadState N H × LinuxMutexes Unit τ} {e : TtError}
    (h : (threadSteadySys N H τ).Returns t ((linuxMutex (.init (some ()))).inr.inr) s e s') :
    (linuxMutexMachine Unit τ).Returns t (ttPlatformMutexInit (some ())) s.2 e s'.2 ∧
      s'.1 = s.1 := by
  obtain ⟨es, h⟩ := h
  have hevery : ((linuxMutex (.init (some ()))).inr :
      Prog ((tableOpSig N (Option H)).sum (linuxMutexSig Unit)) TtError).Every
      fun p => ∃ q, p = Sum.inr q := (Prog.every_of_forall (fun q => ⟨q, rfl⟩) _).inr
  have hstep : ∀ x p c r c', (∃ q, p = Sum.inr q) →
      (threadSteadySys N H τ).exec x t (.inr p) c = some (r, c') →
      (∃ y, ((tableMachine N (fun _ => (none : Option H)) τ LinuxChoice).sum
        (linuxMutexMachine Unit τ)).exec y t p (c.1.table, c.2) = some (r, c'.1.table, c'.2)) ∧
        c'.1 = c.1 := by
    rintro x p c r c' ⟨q, rfl⟩ hexec
    obtain ⟨⟨r', m⟩, hm, heq⟩ := Option.map_eq_some_iff.mp hexec
    cases heq
    exact ⟨⟨_, Option.map_eq_some_iff.mpr ⟨_, hm, rfl⟩⟩, rfl⟩
  obtain ⟨es₁, -, hrun, hsame⟩ := Machine.run_inr_of_sim (f := fun c => (c.1.table, c.2))
    (R := fun c c' => c'.1 = c.1) (fun _ => rfl) (fun _ _ _ h₁ h₂ => by rw [h₂, h₁])
    (fun _ _ => rfl) (fun p _ => by cases p <;> rfl) hstep hevery h
  obtain ⟨es₂, -, hmutex, -⟩ := Machine.run_inr.mp hrun
  exact ⟨⟨es₂, hmutex⟩, hsame⟩

/-- At program start a `tt_thread_init` that succeeds leaves an empty table and a free mutex. -/
theorem returns_init {t : τ} {s₀ : ThreadState N H × LinuxMutexes Unit τ}
    (hinit : (threadSteadySys N H τ).Returns t (linked ttThreadInit) (.zero, .zero) .success s₀) :
    s₀.1 = .zero ∧ ∃ p, Stays p none s₀.2 := by
  rw [linked_eq] at hinit
  obtain ⟨es, hrun⟩ := hinit
  obtain ⟨e, s₁, es₁, es₂, hmutex, hrest⟩ := Machine.run_bind (m := (linuxMutex _).inr.inr) hrun
  obtain ⟨hmutex, hsame⟩ := returns_mutexInit ⟨es₁, hmutex⟩
  by_cases he : e = .success
  · subst he
    obtain ⟨p, hp⟩ := Lock.stays_init hmutex
    have hevery : (ttThreadTableCleanup.inr :
        Prog ((threadOpSig H).sum (tableSig N (Option H))) TtError).Every
        (Levels.Uses Reinit.LocksOnly) := (Reinit.every_tableFunction (p := .cleanup) nofun).inr
    have hrest : (linuxLevels N H τ p).lower.Returns t ((ttThreadTableCleanup.inr.bind .ret).handle
        (Prog.beside (Prog.beside linuxMutex))) s₁ .success s₀ := ⟨es₂, hrest⟩
    rw [Prog.bind_ret] at hrest
    obtain ⟨a, ha, hrel⟩ := (linuxImplements N H τ p).returns hevery (a := (s₁.1, none)) ⟨rfl, hp⟩
      hrest
    have hs := returns_cleanup ha
    subst hs
    refine ⟨?_, p, hrel.2⟩
    rw [← hrel.1, hsame]
    rfl
  · simp only [ne_eq, he, not_false_eq_true, if_true] at hrest
    have hrest : (threadSteadySys N H τ).Run t (Prog.ret e) s₁ es₂ .success s₀ := hrest
    exact absurd (Machine.run_ret_iff.mp hrest).2.1 he

/-! ### What the thread functions come to -/

omit [DecidableEq H] in
theorem uses_platformThreadCreate (thread : Option Addr) (attr : Option TtThreadAttr)
    (func arg : Option Addr) : (ttPlatformThreadCreate thread attr func arg :
      Prog (threadSig H) TtError).Every (Levels.Uses (Keeping H)) := by
  have hwith : ∀ a n f, (pthreadCreateWith a n f arg : Prog (threadSig H) TtError).Every
      (Levels.Uses (Keeping H)) :=
    fun _ _ _ => ⟨trivial, fun _ => ⟨trivial, fun _ => ⟨trivial, fun _ => trivial⟩⟩⟩
  unfold ttPlatformThreadCreate
  split
  · refine ⟨trivial, fun ok => Prog.every_ite trivial ?_⟩
    cases attr with
    | none => exact hwith _ _ _
    | some attr =>
        refine Prog.every_ite ⟨trivial, fun ok => Prog.every_ite ⟨trivial, fun _ => trivial⟩ ?_⟩ ?_
        · exact hwith _ _ _
        · exact hwith _ _ _
  · trivial

omit [DecidableEq H] in
theorem uses_platformThreadDestroy (thread : Option Addr) :
    (ttPlatformThreadDestroy thread : Prog (threadSig H) TtError).Every
      (Levels.Uses (Keeping H)) := by
  cases thread with
  | none => trivial
  | some a =>
      refine ⟨trivial, fun state => Prog.every_ite trivial ⟨trivial, fun result => ?_⟩⟩
      refine Prog.every_ite trivial ⟨trivial, fun isActive => Prog.every_ite ?_ ?_⟩
      · refine ⟨trivial, fun handle => ⟨trivial, fun ok => Prog.every_ite trivial ?_⟩⟩
        exact ⟨trivial, fun _ => ⟨trivial, fun _ => trivial⟩⟩
      · exact ⟨trivial, fun _ => trivial⟩

omit [DecidableEq H] in
theorem uses_threadCreate (thread : Option Addr) (attr : Option TtThreadAttr)
    (func arg : Option Addr) : (ttThreadCreate thread attr func arg :
      Prog (threadSig H) TtError).Every (Levels.Uses (Keeping H)) := by
  unfold ttThreadCreate
  split
  · refine ⟨trivial, fun newThread => ?_⟩
    cases newThread with
    | none => trivial
    | some a =>
        refine ⟨trivial, fun _ => ⟨trivial, fun _ => ⟨trivial, fun _ => ⟨trivial, fun _ => ?_⟩⟩⟩⟩
        refine ⟨trivial, fun _ => ⟨trivial, fun _ => ⟨trivial, fun _ => ?_⟩⟩⟩
        refine (uses_platformThreadCreate _ _ _ _).bind fun result => ?_
        refine Prog.every_ite ⟨trivial, fun _ => trivial⟩ ⟨trivial, fun registered => ?_⟩
        refine Prog.every_ite ?_ ⟨trivial, fun _ => trivial⟩
        exact (uses_platformThreadDestroy _).bind fun _ => ⟨trivial, fun _ => trivial⟩
  · trivial

/-- Creates, joins and destroys. -/
def Managing : ThreadCall H → Prop
  | .create _ _ _ _ | .join _ | .destroy _ => True
  | .init | .findByHandle _ => False

omit [DecidableEq H] in
theorem uses_body {c : ThreadCall H} (hc : Managing c) :
    (threadBody c).Every (Levels.Uses (Keeping H)) := by
  cases c with
  | init | findByHandle handle => exact hc.elim
  | create thread attr func arg => exact (uses_threadCreate _ _ _ _).map _
  | destroy thread => exact (uses_platformThreadDestroy thread).map _
  | join thread =>
      refine Prog.Every.map (m := ttThreadJoin thread) _ ?_
      cases thread with
      | none => trivial
      | some a =>
          refine ⟨trivial, fun handle => ⟨trivial, fun ok => Prog.every_ite ?_ trivial⟩⟩
          exact ⟨trivial, fun _ => ⟨trivial, fun _ => trivial⟩⟩

/-- With the table linked in, they lock and unlock. -/
theorem locks_body {c : ThreadCall H} (hc : Managing c) :
    ((threadBody c).link (tableFunction (N := N))).Every (Levels.Uses Reinit.LocksOnly) := by
  refine (uses_body hc).link (fun _ _ => trivial) ?_
  intro p hp
  refine Reinit.every_tableFunction ?_
  rintro rfl
  exact hp.elim

/-! ### The simulation -/

/-- Pools of `threadSys` and of the linked system that a client cannot tell apart. -/
structure Matched (pa : Pool (threadSig H) τ (ThreadState N H) (ThreadCall H) TableVal)
    (pl : Pool (threadLinuxSig N H) τ (ThreadState N H × LinuxMutexes Unit τ) (ThreadCall H)
      TableVal) : Prop where
  /-- The same calls, returns, and accesses to records and pthreads, in the same order. -/
  seen : seen own pa.view.trace = seen own pl.view.trace
  calls : pa.view.calls = pl.view.calls
  rest : pl.view.shared.1 = withTable pa.view.shared pl.view.shared.1.table
  /-- Nor do the tables differ, while nobody has the mutex. -/
  table : (∃ p, Stays p none pl.view.shared.2) → pl.view.shared.1 = pa.view.shared

variable [DecidableEq τ]

/-- The clients' promise is about what is seen, and they create, join and destroy. -/
theorem matched {t₀ : τ} {s₀ : ThreadState N H × LinuxMutexes Unit τ}
    (hinit : (threadSteadySys N H τ).Returns t₀ (linked ttThreadInit) (.zero, .zero) .success s₀)
    {ok : List (Event (threadOpSig H) τ (ThreadCall H) TableVal) → τ → ThreadCall H → Prop}
    (hok : ∀ tr t c, ok tr t c → Managing c)
    {pl : Pool (threadLinuxSig N H) τ (ThreadState N H × LinuxMutexes Unit τ) (ThreadCall H) TableVal}
    (h : (threadSteadySys N H τ).Reach (promise own ok) s₀ pl) :
    ∃ pa, (threadSys N H τ).Reach (promise own ok) .zero pa ∧ Matched pa pl := by
  obtain ⟨hzero, p, hp⟩ := returns_init hinit
  have hlinked : ∀ tr t c, ok tr t c → linked (N := N) (threadBody c)
      = ((threadBody c).link tableFunction).handle (Prog.beside (Prog.beside linuxMutex)) :=
    fun _ _ c _ => linked_eq (threadBody c)
  have h : ((linuxLevels N H τ p).below fun c => linked (threadBody c)).Reach (promise own ok) s₀ pl :=
    h
  obtain ⟨pm, hpm, hm⟩ := (linuxImplements N H τ p).refines hlinked
    (fun tr t c hc => locks_body (hok tr t c hc)) (a := (.zero, none)) ⟨hzero.symm, hp⟩ h
  have hpm : ((sections N H τ).levels.below fun c => (threadBody c).link tableFunction).Reach
      (promise own ok) (.zero, none) pm := hpm
  have hstart : (sections N H τ).levels.rel .zero (.zero, none) := ⟨rfl, trivial, fun _ => rfl⟩
  obtain ⟨pa, hpa, ha⟩ := (sections N H τ).implements.refines
    (fun _ _ c _ => Prog.link_eq_handle tableFunction (threadBody c))
    (fun tr t c hc => uses_body (hok tr t c hc)) hstart hpm
  obtain ⟨hrest, -, hfree⟩ := ha.rel
  obtain ⟨hshared, hstays⟩ := hm.rel
  refine ⟨pa, hpa, ha.seen.trans hm.seen, ha.calls.trans hm.calls, ?_, ?_⟩
  · rw [← hshared]
    exact hrest
  · rintro ⟨p', hp'⟩
    have htable := congrArg Prod.fst (hfree (Lock.standsFor_free (b := .linux) hstays hp'))
    rw [← hshared]
    refine Eq.trans hrest ?_
    show withTable pa.view.shared pm.view.shared.1.table = pa.view.shared
    rw [show pm.view.shared.1.table = pa.view.shared.table from htable, withTable_self]

/-! ### Ownership -/

abbrev SeenEvent (H τ : Type) := Event (threadOpSig H) τ (ThreadCall H) TableVal

/-- What has become of the record at `a`, read off what is seen. -/
def ledgerSeen (tr : List (SeenEvent H τ)) (a : Addr) : Thread.RecordStatus :=
  Thread.ledger (tr.map Event.whole) a

/-- A `pthread_detach` was seen to fail. -/
def DetachSeen (tr : List (SeenEvent H τ)) : Prop := Thread.DetachFailed (tr.map Event.whole)

omit [DecidableEq H] [DecidableEq τ] in
theorem detachSeen {tr : List (Thread.ThreadEvent H τ)} (h : Thread.DetachFailed tr) :
    DetachSeen (seen own tr) := by
  obtain ⟨id, t, handle, hmem⟩ := h
  exact ⟨id, t, handle, List.mem_map.mpr ⟨_, prim_mem_seen.mpr hmem, rfl⟩⟩

omit [DecidableEq H] [DecidableEq τ] in
theorem ledgerSeen_seen (tr : List (Thread.ThreadEvent H τ)) (a : Addr) :
    ledgerSeen (seen own tr) a = Thread.ledger tr a :=
  foldl_seen (fun _ _ _ _ _ => rfl) tr _

/-- `Thread.Owned`, for clients that do not look threads up. -/
def OwnedSeen (tr : List (SeenEvent H τ)) (_ : τ) : ThreadCall H → Prop
  | .join (some a) | .destroy (some a) => ledgerSeen tr a = .handed
  | .join none | .destroy none | .create _ _ _ _ => True
  | .init | .findByHandle _ => False

instance {S : Sig} {σ : Type} (w : Showing S (threadOpSig H))
    (v : View S τ σ (ThreadCall H) TableVal) (t : τ) (c : ThreadCall H) :
    Decidable (promise w OwnedSeen v t c) :=
  match c with
  | .join (some a) | .destroy (some a) =>
      inferInstanceAs (Decidable (ledgerSeen (seen w v.trace) a = .handed))
  | .join none | .destroy none | .create _ _ _ _ => inferInstanceAs (Decidable True)
  | .init | .findByHandle _ => inferInstanceAs (Decidable False)

omit [DecidableEq H] [DecidableEq τ] in
theorem OwnedSeen.managing {tr : List (SeenEvent H τ)} {t : τ} {c : ThreadCall H}
    (h : OwnedSeen tr t c) : Managing c := by
  cases c with
  | init | findByHandle handle => exact h.elim
  | create thread attr func arg | join thread | destroy thread => trivial

omit [DecidableEq H] [DecidableEq τ] in
theorem OwnedSeen.owned {v : Thread.ThreadView N H τ} {t : τ} {c : ThreadCall H}
    (h : promise own OwnedSeen v t c) : Thread.Owned v t c := by
  rcases c with _ | _ | (_ | a) | (_ | a) | _
  case init => exact h.elim
  case join.some | destroy.some => exact (ledgerSeen_seen v.trace a).symm.trans h
  all_goals trivial

/-- What the linked table says of the records. -/
structure Owns (v : Guarded.GuardView N H τ) : Prop where
  /-- A record the clients have is allocated, with the handle of its thread. -/
  stored : ∀ a, ledgerSeen (seen own v.trace) a = .handed → Thread.Stored v.shared.1 a
  /-- While nobody has the mutex, it is in the table. -/
  handed : (∃ p, Stays p none v.shared.2) → ∀ a, ledgerSeen (seen own v.trace) a = .handed →
    Thread.InTable v.shared.1 a
  sound : (∃ p, Stays p none v.shared.2) → Thread.Sound v.shared.1

/-- What the environment answers in a `tt_thread_init`, for a table of one slot. -/
def initChoices : List (ThreadChoice Nat × LinuxChoice) :=
  (.ok, .addr 50) :: List.replicate 11 (.ok, .ok)

theorem initialises : ((threadSteadySys 1 Nat Nat).eval 0 initChoices (linked ttThreadInit)
    (.zero, .zero)).isSome = true := rfl

/-- The subsystem once it is initialised. -/
def initialised : ThreadState 1 Nat × LinuxMutexes Unit Nat := (Option.get _ initialises).2.2

theorem initialised_returns : (threadSteadySys 1 Nat Nat).Returns 0 (linked ttThreadInit)
    (.zero, .zero) .success initialised :=
  ⟨_, Machine.run_of_eval initChoices (Option.some_get initialises).symm⟩

/-- One thread creates a record and joins it while another one creates a second one, for which the
table has no slot. -/
def crowded : List (Label Nat (ThreadChoice Nat × LinuxChoice) (ThreadCall Nat)) :=
  List.flatten [Guarded.creating 0 10 20 11, [.ret 0], Guarded.creating 1 11 21 6,
    .call 0 (.join (some 10)) :: Guarded.onward 0 4, [.ret 0]]

end ThreadLink

open ThreadLink

/--
**The linked thread subsystem does what the thread API does over an atomic table.**  After a
`tt_thread_init` that succeeded, let threads create, join and destroy, down to the steps on
the slots and on the pthread object of the mutex, in any interleaving.  There is a run of
`threadSys` with the same calls, the same returns and the same accesses to records and
pthreads, in the same order.  It ends in the same state, the table included while nobody
has the mutex.
-/
theorem ttThread_refines {N : Nat} {H τ : Type} [DecidableEq H] [DecidableEq τ] {t₀ : τ}
    {s₀ : ThreadState N H × LinuxMutexes Unit τ}
    (hinit : (threadSteadySys N H τ).Returns t₀ (linked ttThreadInit) (.zero, .zero) .success s₀)
    {ok : List (SeenEvent H τ) → τ → ThreadCall H → Prop}
    (hok : ∀ tr t c, ok tr t c → Managing c)
    {pl : Pool (threadLinuxSig N H) τ (ThreadState N H × LinuxMutexes Unit τ) (ThreadCall H) TableVal}
    (h : (threadSteadySys N H τ).Reach (promise own ok) s₀ pl) :
    ∃ pa, (threadSys N H τ).Reach (promise own ok) .zero pa ∧ Matched pa pl :=
  matched hinit hok h

/-- A record is joined while another thread is among the slots. -/
theorem ttThread_refines_crowded :
    ∃ pl, (threadSteadySys 1 Nat Nat).Reach (promise own OwnedSeen) initialised pl ∧
      ∃ pa, (threadSys 1 Nat Nat).Reach (promise own OwnedSeen) .zero pa ∧ Matched pa pl ∧
        .ret 2 0 (.join (some 10)) (.err .success) ∈ pa.view.trace := by
  have hrun : ((threadSteadySys 1 Nat Nat).run (promise own OwnedSeen) crowded
      (Sys.start initialised)).isSome = true := rfl
  have hreach := Sys.Reach.run _ .start (Option.some_get hrun).symm
  obtain ⟨pa, hpa, hm⟩ :=
    ttThread_refines initialised_returns (fun _ _ _ hc => hc.managing) hreach
  refine ⟨_, hreach, pa, hpa, hm, ?_⟩
  rw [← ret_mem_seen, hm.seen]
  exact List.mem_of_getLast? rfl

/--
**Who owns a thread record, in the linked subsystem.**  After a `tt_thread_init` that
succeeded, in any interleaving of clients that keep their promise, and as long as no
`pthread_detach` fails, every record the clients have is allocated and holds the handle of
its thread.  Whenever nobody has the mutex it is in the table, no record is there twice, and
the slots in use hold allocated records and the others `NULL`.
-/
theorem ttThread_linked_owns {N : Nat} {H τ : Type} [DecidableEq H] [DecidableEq τ] {t₀ : τ}
    {s₀ : ThreadState N H × LinuxMutexes Unit τ}
    (hinit : (threadSteadySys N H τ).Returns t₀ (linked ttThreadInit) (.zero, .zero) .success s₀)
    {pl : Pool (threadLinuxSig N H) τ (ThreadState N H × LinuxMutexes Unit τ) (ThreadCall H) TableVal}
    (h : (threadSteadySys N H τ).Reach (promise own OwnedSeen) s₀ pl)
    (hdetach : ¬ DetachSeen (seen own pl.view.trace)) : Owns pl.view := by
  obtain ⟨pa, hpa, hm⟩ := matched hinit (fun _ _ _ hc => hc.managing) h
  have hstart : (threadMachine N H τ).Run t₀ ttThreadInit .zero [⟨.inr .init, .success⟩] .success
      .zero := .step .ok rfl rfl (.ret _ _)
  have howned := hpa.mono fun _ _ _ => OwnedSeen.owned
  obtain ⟨G, hinv⟩ := Thread.inv_of_reach hstart howned
  rw [← hm.seen] at hdetach
  have howns := hinv.owns (Thread.not_lost howned fun hfailed => hdetach (detachSeen hfailed))
  have hhanded : ∀ a, ledgerSeen (seen own pl.view.trace) a = .handed →
      Thread.InTable pa.view.shared a := by
    intro a ha
    rw [← hm.seen, ledgerSeen_seen] at ha
    exact howns.handed a ha
  refine ⟨?_, ?_, ?_⟩
  · intro a ha
    have hstored := (hhanded a ha).stored hinv.sound
    rw [hm.rest]
    exact hstored
  · intro hfree a ha
    rw [hm.table hfree]
    exact hhanded a ha
  · intro hfree
    rw [hm.table hfree]
    exact hinv.sound

/-- The second create has come to nothing and the first record is in the table. -/
theorem ttThread_linked_owns_crowded :
    ∃ pl, (threadSteadySys 1 Nat Nat).Reach (promise own OwnedSeen) initialised pl ∧
      .ret 1 1 (.create (some 1) none (some 7) none) (.err .notFound) ∈ pl.view.trace ∧
      Thread.InTable pl.view.shared.1 10 ∧ Thread.Stored pl.view.shared.1 10 := by
  have hrun : ((threadSteadySys 1 Nat Nat).run (promise own OwnedSeen)
      (crowded ++ Guarded.onward 1 4 ++ [.ret 1]) (Sys.start initialised)).isSome = true := rfl
  have hreach := Sys.Reach.run _ .start (Option.some_get hrun).symm
  have hfree : ∃ p, Lock.Stays p none (Option.get _ hrun).view.shared.2 := ⟨50, rfl, rfl⟩
  have howns := ttThread_linked_owns initialised_returns hreach (Thread.not_detachFailed rfl)
  exact ⟨_, hreach, List.mem_of_getLast? rfl, howns.handed hfree 10 rfl, howns.stored 10 rfl⟩

end TinyTools
