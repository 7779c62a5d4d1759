/-
The mutex interface on Linux (`tt_platform_linux.c`, reached from `tt_mutex.c`).

`lock` points to a `tt_linux_mutex_t` that `tt_mutex_init` allocates, and every other
function follows the pointer it finds there when it comes to it.  Each access to a
field of a mutex is one step, and so is each call of the allocator or of pthreads.

The environment decides which address `malloc` returns, among those not allocated,
and whether a pthread function succeeds.  A pthread function on something that is
not an initialised pthread mutex is undefined behaviour: the machine has no step.
-/
import TinyTools.Mutex
import Mathlib.Logic.Function.Basic

namespace TinyTools

open Interleave

/-- `tt_mutex_t`: a pointer to a `tt_linux_mutex_t`, `none` being `NULL`. -/
structure TtMutex : Type where
  lock : Option Addr
  initialized : Bool
  deriving DecidableEq

/-- An allocated `tt_linux_mutex_t`. -/
inductive LinuxMutex (τ : Type) : Type
  /-- Before `pthread_mutex_init`, and after `pthread_mutex_destroy`. -/
  | raw
  | ready (holder : Option τ)
  deriving DecidableEq

/-- What the Linux functions do in one step.  The pthread functions answer whether they
returned 0. -/
inductive LinuxMutexOp (M : Type) : Type
  | readLock (m : M)
  | writeLock (m : M) (lock : Option Addr)
  | readInitialized (m : M)
  | writeInitialized (m : M) (b : Bool)
  | malloc
  | free (p : Option Addr)
  | pthreadMutexInit (p : Option Addr)
  | pthreadMutexDestroy (p : Option Addr)
  | pthreadMutexLock (p : Option Addr)
  | pthreadMutexUnlock (p : Option Addr)
  | pthreadMutexTrylock (p : Option Addr)
  deriving DecidableEq

@[reducible] def LinuxMutexOp.Res {M : Type} : LinuxMutexOp M → Type
  | .readLock _ | .malloc => Option Addr
  | .writeLock _ _ | .writeInitialized _ _ | .free _ => Unit
  | .readInitialized _ | .pthreadMutexInit _ | .pthreadMutexDestroy _ | .pthreadMutexLock _
  | .pthreadMutexUnlock _ | .pthreadMutexTrylock _ => Bool

abbrev linuxMutexSig (M : Type) : Sig := ⟨LinuxMutexOp M, LinuxMutexOp.Res⟩

variable {M : Type}

/-! ### The functions -/

/-- `tt_platform_mutex_init`. -/
def ttPlatformMutexInit (mutex : Option M) : Prog (linuxMutexSig M) TtError :=
  match mutex with
  | none => .ret .nullPointer
  | some m =>
      .step .malloc fun (linuxMutex : Option Addr) =>
      if linuxMutex = none then .ret .memory else
      .step (.pthreadMutexInit linuxMutex) fun (ok : Bool) =>
      if !ok then .step (.free linuxMutex) fun _ => .ret .mutexInit else
      .step (.writeLock m linuxMutex) fun _ =>
      .step (.writeInitialized m true) fun _ =>
      .ret .success

/-- `tt_platform_mutex_destroy`. -/
def ttPlatformMutexDestroy (mutex : Option M) : Prog (linuxMutexSig M) TtError :=
  match mutex with
  | none => .ret .nullPointer
  | some m =>
      .step (.readLock m) fun (linuxMutex : Option Addr) =>
      .step (.pthreadMutexDestroy linuxMutex) fun (ok : Bool) =>
      if !ok then .ret .mutexDestroy else
      .step (.free linuxMutex) fun _ =>
      .step (.writeInitialized m false) fun _ =>
      .ret .success

/-- What lock, unlock and trylock share: `call` on the object the mutex points to, its failure
being reported as `failed`. -/
def ttPlatformMutexOn (call : Option Addr → Prog (linuxMutexSig M) Bool) (failed : TtError)
    (mutex : Option M) : Prog (linuxMutexSig M) TtError :=
  match mutex with
  | none => .ret .nullPointer
  | some m =>
      .step (.readInitialized m) fun (initialized : Bool) =>
      if !initialized then .ret .invalidParam else
      .step (.readLock m) fun (linuxMutex : Option Addr) => do
      let ok ← call linuxMutex
      return if ok then .success else failed

/-- `tt_platform_mutex_lock`. -/
def ttPlatformMutexLock : Option M → Prog (linuxMutexSig M) TtError :=
  ttPlatformMutexOn (fun p => .step (.pthreadMutexLock p) .ret) .mutexLock

/-- `tt_platform_mutex_unlock`. -/
def ttPlatformMutexUnlock : Option M → Prog (linuxMutexSig M) TtError :=
  ttPlatformMutexOn (fun p => .step (.pthreadMutexUnlock p) .ret) .mutexUnlock

/-- `tt_platform_mutex_trylock`. -/
def ttPlatformMutexTrylock : Option M → Prog (linuxMutexSig M) TtError :=
  ttPlatformMutexOn (fun p => .step (.pthreadMutexTrylock p) .ret) .busy

/-- `tt_platform_mutex_is_locked`. -/
def ttPlatformMutexIsLocked (mutex : Option M) : Prog (linuxMutexSig M) Bool :=
  match mutex with
  | none => .ret false
  | some m =>
      .step (.readInitialized m) fun (initialized : Bool) =>
      if !initialized then .ret false else
      .step (.readLock m) fun (linuxMutex : Option Addr) =>
      .step (.pthreadMutexTrylock linuxMutex) fun (taken : Bool) =>
      if taken then .step (.pthreadMutexUnlock linuxMutex) fun _ => .ret false
      else .ret true

/-- The interface on Linux. -/
def linuxMutex : (c : MutexCall M) → Prog (linuxMutexSig M) c.Res
  | .init m => ttPlatformMutexInit m
  | .destroy m => ttPlatformMutexDestroy m
  | .lock m => ttPlatformMutexLock m
  | .unlock m => ttPlatformMutexUnlock m
  | .trylock m => ttPlatformMutexTrylock m
  | .isLocked m => ttPlatformMutexIsLocked m

/-! ### The machine -/

/-- What the environment decides: an address for `malloc`, success for a pthread function. -/
inductive LinuxChoice : Type
  | ok
  | fail
  | addr (a : Addr)
  deriving DecidableEq

/-- The mutexes, and what is allocated at each address. -/
structure LinuxMutexes (M τ : Type) : Type where
  mutex : M → TtMutex
  object : Addr → Option (LinuxMutex τ)

namespace LinuxMutexes

/-- Every mutex zero, nothing allocated. -/
def zero {τ : Type} : LinuxMutexes M τ := ⟨fun _ => ⟨none, false⟩, fun _ => none⟩

def setMutex [DecidableEq M] {τ : Type} (s : LinuxMutexes M τ) (m : M) (x : TtMutex) :
    LinuxMutexes M τ :=
  { s with mutex := Function.update s.mutex m x }

def setObject {τ : Type} (s : LinuxMutexes M τ) (a : Addr) (o : Option (LinuxMutex τ)) :
    LinuxMutexes M τ :=
  { s with object := Function.update s.object a o }

section Fields

variable {τ : Type} (s : LinuxMutexes M τ) (m : M) (x : TtMutex) (a : Addr)
  (o : Option (LinuxMutex τ))

@[simp] theorem setMutex_mutex [DecidableEq M] :
    (s.setMutex m x).mutex = Function.update s.mutex m x := rfl

@[simp] theorem setMutex_object [DecidableEq M] : (s.setMutex m x).object = s.object := rfl

@[simp] theorem setObject_mutex : (s.setObject a o).mutex = s.mutex := rfl

@[simp] theorem setObject_object :
    (s.setObject a o).object = Function.update s.object a o := rfl

@[simp] theorem setObject_setObject (o' : Option (LinuxMutex τ)) :
    (s.setObject a o').setObject a o = s.setObject a o := by
  simp [setObject]

variable {s a o} in
theorem setObject_eq_self (h : s.object a = o) : s.setObject a o = s := by
  simp [setObject, ← h]

end Fields

end LinuxMutexes

/-- One step.  `pthread_mutex_lock` on an object somebody holds waits, unless it fails. -/
def linuxMutexExec [DecidableEq M] {τ : Type} (x : LinuxChoice) (t : τ) :
    (p : LinuxMutexOp M) → LinuxMutexes M τ → Option (p.Res × LinuxMutexes M τ)
  | .readLock m, s => some ((s.mutex m).lock, s)
  | .writeLock m lock, s => some ((), s.setMutex m { s.mutex m with lock := lock })
  | .readInitialized m, s => some ((s.mutex m).initialized, s)
  | .writeInitialized m b, s => some ((), s.setMutex m { s.mutex m with initialized := b })
  | .malloc, s =>
      match x with
      | .addr a => if s.object a = none then some (some a, s.setObject a (some .raw)) else none
      | _ => some (none, s)
  | .free none, s => some ((), s)
  | .free (some a), s =>
      match s.object a with
      | some _ => some ((), s.setObject a none)
      | none => none
  | .pthreadMutexInit none, _ | .pthreadMutexDestroy none, _ | .pthreadMutexLock none, _
  | .pthreadMutexUnlock none, _ | .pthreadMutexTrylock none, _ => none
  | .pthreadMutexInit (some a), s =>
      match s.object a, x with
      | some .raw, .ok => some (true, s.setObject a (some (.ready none)))
      | some .raw, _ => some (false, s)
      | _, _ => none
  | .pthreadMutexDestroy (some a), s =>
      match s.object a, x with
      | some (.ready none), .ok => some (true, s.setObject a (some .raw))
      | some (.ready _), _ => some (false, s)
      | _, _ => none
  | .pthreadMutexLock (some a), s =>
      match s.object a, x with
      | some (.ready none), .ok => some (true, s.setObject a (some (.ready (some t))))
      | some (.ready (some _)), .ok => none
      | some (.ready _), _ => some (false, s)
      | _, _ => none
  | .pthreadMutexUnlock (some a), s =>
      match s.object a, x with
      | some (.ready _), .ok => some (true, s.setObject a (some (.ready none)))
      | some (.ready _), _ => some (false, s)
      | _, _ => none
  | .pthreadMutexTrylock (some a), s =>
      match s.object a, x with
      | some (.ready none), .ok => some (true, s.setObject a (some (.ready (some t))))
      | some (.ready _), _ => some (false, s)
      | _, _ => none

def linuxMutexMachine (M : Type) [DecidableEq M] (τ : Type) :
    Machine (linuxMutexSig M) τ LinuxChoice (LinuxMutexes M τ) where
  exec := linuxMutexExec

/-- Threads calling the mutex functions on Linux. -/
def linuxMutexSys (M : Type) [DecidableEq M] (τ : Type) :
    Sys (linuxMutexSig M) τ LinuxChoice (LinuxMutexes M τ) (MutexCall M) TtVal where
  toMachine := linuxMutexMachine M τ
  body c := do return c.val (← linuxMutex c)

/-! ### What the allocator and the pthread functions do on the objects they are meant for -/

section Exec

attribute [local simp] linuxMutexExec

variable [DecidableEq M] {τ : Type} {x : LinuxChoice} {t : τ} {s s' : LinuxMutexes M τ} {a : Addr}

theorem linuxMutexExec_malloc {p : Option Addr}
    (hexec : linuxMutexExec x t .malloc s = some (p, s')) :
    (∃ a, s.object a = none ∧ p = some a ∧ s' = s.setObject a (some .raw)) ∨
      (p = none ∧ s' = s) := by
  cases x with
  | addr a =>
      simp only [linuxMutexExec] at hexec
      split at hexec
      · rename_i hnone
        cases hexec
        exact Or.inl ⟨a, hnone, rfl, rfl⟩
      · cases hexec
  | _ =>
      cases hexec
      exact Or.inr ⟨rfl, rfl⟩

/-- Only the two writes touch a mutex. -/
theorem linuxMutexExec_mutex {x : LinuxChoice} {t : τ} {p : LinuxMutexOp M} {s s' : LinuxMutexes M τ}
    {r : p.Res} (hexec : linuxMutexExec x t p s = some (r, s'))
    (hlock : ∀ m lock, p ≠ .writeLock m lock) (hinit : ∀ m b, p ≠ .writeInitialized m b) :
    s'.mutex = s.mutex := by
  cases p with
  | readLock m | readInitialized m =>
      cases hexec
      rfl
  | writeLock m lock => exact absurd rfl (hlock m lock)
  | writeInitialized m b => exact absurd rfl (hinit m b)
  | malloc =>
      rcases linuxMutexExec_malloc hexec with ⟨a, -, -, rfl⟩ | ⟨-, rfl⟩
      · rfl
      · rfl
  | free q =>
      cases q with
      | none =>
          cases hexec
          rfl
      | some a =>
          simp only [linuxMutexExec] at hexec
          split at hexec <;> cases hexec
          rfl
  | pthreadMutexInit q | pthreadMutexDestroy q | pthreadMutexLock q | pthreadMutexUnlock q
  | pthreadMutexTrylock q =>
      cases q with
      | none => cases hexec
      | some a =>
          simp only [linuxMutexExec] at hexec
          split at hexec <;> cases hexec <;> rfl

theorem linuxMutexExec_free {o : LinuxMutex τ} {u : Unit} (hobject : s.object a = some o)
    (hexec : linuxMutexExec x t (.free (some a)) s = some (u, s')) : s' = s.setObject a none := by
  simp only [linuxMutexExec, hobject] at hexec
  cases hexec
  rfl

theorem linuxMutexExec_init {ok : Bool} (hraw : s.object a = some .raw)
    (hexec : linuxMutexExec x t (.pthreadMutexInit (some a)) s = some (ok, s')) :
    (ok = true ∧ s' = s.setObject a (some (.ready none))) ∨ (ok = false ∧ s' = s) := by
  simp only [linuxMutexExec, hraw] at hexec
  cases x with
  | ok =>
      cases hexec
      exact Or.inl ⟨rfl, rfl⟩
  | _ =>
      cases hexec
      exact Or.inr ⟨rfl, rfl⟩

theorem linuxMutexExec_lock {h : Option τ} {ok : Bool} (hready : s.object a = some (.ready h))
    (hexec : linuxMutexExec x t (.pthreadMutexLock (some a)) s = some (ok, s')) :
    (ok = true ∧ h = none ∧ s' = s.setObject a (some (.ready (some t)))) ∨
      (ok = false ∧ s' = s) := by
  simp only [linuxMutexExec, hready] at hexec
  cases h with
  | none =>
      cases x with
      | ok =>
          cases hexec
          exact Or.inl ⟨rfl, rfl, rfl⟩
      | _ =>
          cases hexec
          exact Or.inr ⟨rfl, rfl⟩
  | some u =>
      cases x with
      | ok => cases hexec
      | _ =>
          cases hexec
          exact Or.inr ⟨rfl, rfl⟩

theorem linuxMutexExec_unlock {h : Option τ} {ok : Bool} (hready : s.object a = some (.ready h))
    (hexec : linuxMutexExec x t (.pthreadMutexUnlock (some a)) s = some (ok, s')) :
    (ok = true ∧ s' = s.setObject a (some (.ready none))) ∨ (ok = false ∧ s' = s) := by
  simp only [linuxMutexExec, hready] at hexec
  cases x with
  | ok =>
      cases hexec
      exact Or.inl ⟨rfl, rfl⟩
  | _ =>
      cases hexec
      exact Or.inr ⟨rfl, rfl⟩

theorem linuxMutexExec_trylock {h : Option τ} {ok : Bool} (hready : s.object a = some (.ready h))
    (hexec : linuxMutexExec x t (.pthreadMutexTrylock (some a)) s = some (ok, s')) :
    (ok = true ∧ h = none ∧ s' = s.setObject a (some (.ready (some t)))) ∨
      (ok = false ∧ s' = s) := by
  simp only [linuxMutexExec, hready] at hexec
  cases h with
  | none =>
      cases x with
      | ok =>
          cases hexec
          exact Or.inl ⟨rfl, rfl, rfl⟩
      | _ =>
          cases hexec
          exact Or.inr ⟨rfl, rfl⟩
  | some u =>
      cases hexec
      exact Or.inr ⟨rfl, rfl⟩

theorem linuxMutexExec_destroy {h : Option τ} {ok : Bool} (hready : s.object a = some (.ready h))
    (hexec : linuxMutexExec x t (.pthreadMutexDestroy (some a)) s = some (ok, s')) :
    (ok = true ∧ h = none ∧ s' = s.setObject a (some .raw)) ∨ (ok = false ∧ s' = s) := by
  simp only [linuxMutexExec, hready] at hexec
  cases h with
  | none =>
      cases x with
      | ok =>
          cases hexec
          exact Or.inl ⟨rfl, rfl, rfl⟩
      | _ =>
          cases hexec
          exact Or.inr ⟨rfl, rfl⟩
  | some u =>
      cases hexec
      exact Or.inr ⟨rfl, rfl⟩

end Exec

end TinyTools
