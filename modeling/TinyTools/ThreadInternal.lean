/-
The thread table (`tt_thread_internal.c`).

The table has `N` slots (`TT_MAX_THREADS`), each a pointer and a flag that are read and
written separately.  Records are named by their addresses, `none` being `NULL`, and
the table functions look into one only to compare its handle.  None of the functions
looks at what the mutex functions return.
-/
import TinyTools.Mutex
import Mathlib.Data.List.FinRange

namespace TinyTools

open Interleave

/-- `tt_thread_table_entry_t`. -/
structure TtThreadTableEntry : Type where
  thread : Option Addr
  inUse : Bool
  deriving DecidableEq

/-- A zero-initialised slot. -/
def TtThreadTableEntry.zero : TtThreadTableEntry := ⟨none, false⟩

/-- `g_thread_table`. -/
abbrev Table (N : Nat) := Fin N → TtThreadTableEntry

/-- The zero-initialised table. -/
def Table.zero (N : Nat) : Table N := fun _ => .zero

/-- The accesses of the table functions, each one step. -/
inductive TableOp (N : Nat) : Type
  | readInUse (i : Fin N)
  | writeInUse (i : Fin N) (b : Bool)
  | readThread (i : Fin N)
  | writeThread (i : Fin N) (thread : Option Addr)
  /-- `thread->handle` -/
  | readHandle (thread : Option Addr)
  deriving DecidableEq

@[reducible] def TableOp.Res (H : Type) {N : Nat} : TableOp N → Type
  | .readInUse _ => Bool
  | .readThread _ => Option Addr
  | .readHandle _ => H
  | .writeInUse _ _ | .writeThread _ _ => Unit

abbrev tableOpSig (N : Nat) (H : Type) : Sig := ⟨TableOp N, TableOp.Res H⟩

/-- Slots of the table, and the mutex functions on `&g_thread_table_mutex`. -/
abbrev tableSig (N : Nat) (H : Type) : Sig := (tableOpSig N H).sum (mutexSig Unit)

variable {N : Nat} {H : Type}

/-! ### The functions -/

/-- A `for` loop over slots that ends at the first one for which the body breaks. -/
def scan {S : Sig} {α : Type} (body : Fin N → Prog S (Option α)) :
    List (Fin N) → Prog S (Option α)
  | [] => .ret none
  | i :: slots =>
      body i >>= fun
        | some a => .ret (some a)
        | none => scan body slots

/-- `memset(g_thread_table, 0, sizeof(g_thread_table))` -/
def clearSlots : List (Fin N) → Prog (tableSig N H) Unit
  | [] => .ret ()
  | i :: slots =>
      .step (.inl (.writeThread i none)) fun _ =>
      .step (.inl (.writeInUse i false)) fun _ =>
      clearSlots slots

/-- `tt_thread_table_init`. -/
def ttThreadTableInit : Prog (tableSig N H) TtError :=
  .step (.inr (.init (some ()))) fun (result : TtError) =>
  if result ≠ .success then .ret result else
  .step (.inr (.lock (some ()))) fun _ =>
  clearSlots (List.finRange N) >>= fun _ =>
  .step (.inr (.unlock (some ()))) fun _ =>
  .ret .success

/-- `tt_thread_table_cleanup`. -/
def ttThreadTableCleanup : Prog (tableSig N H) TtError :=
  .step (.inr (.lock (some ()))) fun _ =>
  clearSlots (List.finRange N) >>= fun _ =>
  .step (.inr (.unlock (some ()))) fun _ =>
  .ret .success

/-- The body of the loop in `tt_thread_table_register`. -/
def registerSlot (thread : Addr) (i : Fin N) : Prog (tableSig N H) (Option TtError) :=
  .step (.inl (.readInUse i)) fun (inUse : Bool) =>
  if !inUse then
    .step (.inl (.writeThread i (some thread))) fun _ =>
    .step (.inl (.writeInUse i true)) fun _ =>
    .ret (some .success)
  else .ret none

/-- `tt_thread_table_register`. -/
def ttThreadTableRegister (thread : Option Addr) : Prog (tableSig N H) TtError :=
  match thread with
  | none => .ret .nullPointer
  | some thread =>
      .step (.inr (.lock (some ()))) fun _ =>
      scan (registerSlot thread) (List.finRange N) >>= fun result =>
      .step (.inr (.unlock (some ()))) fun _ =>
      .ret (result.getD .notFound)

/-- The body of the loop in `tt_thread_table_unregister`. -/
def unregisterSlot (thread : Addr) (i : Fin N) : Prog (tableSig N H) (Option TtError) :=
  .step (.inl (.readInUse i)) fun (inUse : Bool) =>
  if inUse then
    .step (.inl (.readThread i)) fun (t : Option Addr) =>
    if t = some thread then
      .step (.inl (.writeThread i none)) fun _ =>
      .step (.inl (.writeInUse i false)) fun _ =>
      .ret (some .success)
    else .ret none
  else .ret none

/-- `tt_thread_table_unregister`. -/
def ttThreadTableUnregister (thread : Option Addr) : Prog (tableSig N H) TtError :=
  match thread with
  | none => .ret .nullPointer
  | some thread =>
      .step (.inr (.lock (some ()))) fun _ =>
      scan (unregisterSlot thread) (List.finRange N) >>= fun result =>
      .step (.inr (.unlock (some ()))) fun _ =>
      .ret (result.getD .notFound)

/-- The body of the loop in `tt_thread_table_find_by_handle`.  The condition is the value of
`memcmp`, which is true where the two handles differ. -/
def findSlot [DecidableEq H] (handle : H) (i : Fin N) : Prog (tableSig N H) (Option (Option Addr)) :=
  .step (.inl (.readInUse i)) fun (inUse : Bool) =>
  if inUse then
    .step (.inl (.readThread i)) fun (t : Option Addr) =>
    .step (.inl (.readHandle t)) fun (h : H) =>
    if h ≠ handle then
      .step (.inl (.readThread i)) fun (t : Option Addr) =>
      .ret (some t)
    else .ret none
  else .ret none

/-- `tt_thread_table_find_by_handle`. -/
def ttThreadTableFindByHandle [DecidableEq H] (handle : H) : Prog (tableSig N H) (Option Addr) :=
  .step (.inr (.lock (some ()))) fun _ =>
  scan (findSlot handle) (List.finRange N) >>= fun result =>
  .step (.inr (.unlock (some ()))) fun _ =>
  .ret (result.getD none)

/-! ### Calls and machines -/

/-- The table functions. -/
inductive TableCall (H : Type) : Type
  | init
  | cleanup
  | register (thread : Option Addr)
  | unregister (thread : Option Addr)
  | findByHandle (handle : H)
  deriving DecidableEq

/-- What a table function returns. -/
inductive TableVal : Type
  | err (e : TtError)
  | thread (t : Option Addr)
  deriving DecidableEq

def tableBody [DecidableEq H] : TableCall H → Prog (tableSig N H) TableVal
  | .init => do return .err (← ttThreadTableInit)
  | .cleanup => do return .err (← ttThreadTableCleanup)
  | .register thread => do return .err (← ttThreadTableRegister thread)
  | .unregister thread => do return .err (← ttThreadTableUnregister thread)
  | .findByHandle handle => do return .thread (← ttThreadTableFindByHandle handle)

/-- One step on the table.  `handleOf` is the handle field of each record; there is none at
`NULL`. -/
def tableExec {τ χ : Type} (handleOf : Addr → H) (_ : χ) (_ : τ) :
    (p : TableOp N) → Table N → Option (TableOp.Res H p × Table N)
  | .readInUse i, tab => some ((tab i).inUse, tab)
  | .writeInUse i b, tab => some ((), Function.update tab i { tab i with inUse := b })
  | .readThread i, tab => some ((tab i).thread, tab)
  | .writeThread i t, tab => some ((), Function.update tab i { tab i with thread := t })
  | .readHandle (some a), tab => some (handleOf a, tab)
  | .readHandle none, _ => none

def tableMachine (N : Nat) (handleOf : Addr → H) (τ χ : Type) :
    Machine (tableOpSig N H) τ χ (Table N) where
  exec := tableExec handleOf

/-- Threads calling the table functions over a mutex that works. -/
def tableSys [DecidableEq H] (N : Nat) (handleOf : Addr → H) (τ : Type) :
    Sys (tableSig N H) τ Unit (Table N × Option τ) (TableCall H) TableVal where
  toMachine := (tableMachine N handleOf τ Unit).sum (lockMachine τ Unit)
  body := tableBody

/-! ### The table as a value

What each call does to a table nobody else is using, in one go. -/

namespace Table

/-- The first slot for which `P` holds. -/
def first (P : Fin N → Bool) : Option (Fin N) := (List.finRange N).find? P

/-- Slot `i` is in use and holds `thread`. -/
def holds (tab : Table N) (thread : Addr) (i : Fin N) : Bool :=
  (tab i).inUse && decide ((tab i).thread = some thread)

/-- Slot `i` is in use and its record has a handle other than `handle`. -/
def differs [DecidableEq H] (handleOf : Addr → H) (handle : H) (tab : Table N) (i : Fin N) : Bool :=
  (tab i).inUse && (tab i).thread.any fun a => decide (handleOf a ≠ handle)

def register (thread : Option Addr) (tab : Table N) : TtError × Table N :=
  match thread with
  | none => (.nullPointer, tab)
  | some a =>
      match first fun i => !(tab i).inUse with
      | some i => (.success, Function.update tab i ⟨some a, true⟩)
      | none => (.notFound, tab)

def unregister (thread : Option Addr) (tab : Table N) : TtError × Table N :=
  match thread with
  | none => (.nullPointer, tab)
  | some a =>
      match first (tab.holds a) with
      | some i => (.success, Function.update tab i .zero)
      | none => (.notFound, tab)

def findByHandle [DecidableEq H] (handleOf : Addr → H) (handle : H) (tab : Table N) :
    Option Addr :=
  (first (tab.differs handleOf handle)).bind fun i => (tab i).thread

/-- Any call on a table. -/
def call [DecidableEq H] (handleOf : Addr → H) : TableCall H → Table N → TableVal × Table N
  | .init, _ | .cleanup, _ => (.err .success, .zero N)
  | .register thread, tab => ((.err (tab.register thread).1), (tab.register thread).2)
  | .unregister thread, tab => ((.err (tab.unregister thread).1), (tab.unregister thread).2)
  | .findByHandle handle, tab => (.thread (tab.findByHandle handleOf handle), tab)

/-- Calls one after the other. -/
def calls [DecidableEq H] (handleOf : Addr → H) :
    List (TableCall H) → Table N → List TableVal × Table N
  | [], tab => ([], tab)
  | c :: cs, tab =>
      let (v, tab) := call handleOf c tab
      let (vs, tab) := calls handleOf cs tab
      (v :: vs, tab)

theorem first_eq_some {P : Fin N → Bool} {i : Fin N} (h : first P = some i) : P i = true :=
  List.find?_some h

theorem first_eq_none {P : Fin N → Bool} (h : first P = none) (i : Fin N) : P i = false := by
  unfold first at h
  rw [List.find?_eq_none] at h
  exact Bool.eq_false_iff.mpr (h i (List.mem_finRange i))

/-- What registering a record does: a free slot takes it, or there is none. -/
theorem register_cases (tab : Table N) (a : Addr) :
    (∃ i, (tab i).inUse = false ∧
      tab.register (some a) = (.success, Function.update tab i ⟨some a, true⟩)) ∨
    ((∀ i, (tab i).inUse = true) ∧ tab.register (some a) = (.notFound, tab)) := by
  unfold register
  cases hfirst : first fun i => !(tab i).inUse with
  | some i =>
      refine Or.inl ⟨i, ?_, by simp only⟩
      simpa using first_eq_some hfirst
  | none =>
      refine Or.inr ⟨?_, by simp only⟩
      intro i
      simpa using first_eq_none hfirst i

/-- What unregistering a record does: a slot that holds it is freed, or there is none. -/
theorem unregister_cases (tab : Table N) (a : Addr) :
    (∃ i, tab.holds a i = true ∧
      tab.unregister (some a) = (.success, Function.update tab i .zero)) ∨
    ((∀ i, tab.holds a i = false) ∧ tab.unregister (some a) = (.notFound, tab)) := by
  unfold unregister
  cases hfirst : first (tab.holds a) with
  | some i => exact Or.inl ⟨i, first_eq_some hfirst, by simp only [hfirst]⟩
  | none => exact Or.inr ⟨first_eq_none hfirst, by simp only [hfirst]⟩

end Table

end TinyTools
