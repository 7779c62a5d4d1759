/-
The mutex interface (`tt_mutex.h`) and its generic implementation, the spinlock in
the `#else` part of `tt_mutex.c`.

In that build `lock` is declared as a pointer and used as a lock word.  The
test-and-set and the clear act on the byte at its address, `tt_mutex_init` assigns
and `tt_mutex_is_locked` loads the whole pointer, so the word is kept as its bytes.
The loop of `tt_mutex_lock` has an empty body: it is one primitive that the machine
repeats until the byte was found clear, each repetition being a step.
-/
import TinyTools.Lib.Pool
import TinyTools.Types
import Mathlib.Data.Fintype.Basic

namespace TinyTools

open Interleave

/-! ### The interface -/

/-- The functions of `tt_mutex.h`, on the mutex a pointer designates (`none` is `NULL`). -/
inductive MutexCall (M : Type) : Type
  | init (mutex : Option M)
  | destroy (mutex : Option M)
  | lock (mutex : Option M)
  | unlock (mutex : Option M)
  | trylock (mutex : Option M)
  | isLocked (mutex : Option M)
  deriving DecidableEq

/-- What a mutex function returns. -/
@[reducible] def MutexCall.Res {M : Type} : MutexCall M → Type
  | .isLocked _ => Bool
  | _ => TtError

/-- The mutex functions as primitives of a caller. -/
abbrev mutexSig (M : Type) : Sig := ⟨MutexCall M, MutexCall.Res⟩

/-- The result of any mutex function. -/
def MutexCall.val {M : Type} : (c : MutexCall M) → c.Res → TtVal
  | .isLocked _, b => .bool b
  | .init _, e | .destroy _, e | .lock _, e | .unlock _, e | .trylock _, e => .err e

/-! ### A mutex that works

What a module relies on that is verified over the interface: one mutex, whose state is
its holder, taken only while free, every call on it succeeding. -/

/-- One call of a mutex function as one step; `none` where the caller has to wait. -/
def lockExec {τ χ : Type} (_ : χ) (t : τ) :
    (c : MutexCall Unit) → Option τ → Option (c.Res × Option τ)
  | .init (some _), _ => some (.success, none)
  | .destroy (some _), h => some (.success, h)
  | .lock (some _), none => some (.success, some t)
  | .lock (some _), some _ => none
  | .unlock (some _), _ => some (.success, none)
  | .trylock (some _), none => some (.success, some t)
  | .trylock (some _), some u => some (.busy, some u)
  | .isLocked (some _), h => some (h.isSome, h)
  | .isLocked none, h => some (false, h)
  | .init none, h | .destroy none, h | .lock none, h | .unlock none, h | .trylock none, h =>
      some (.nullPointer, h)

def lockMachine (τ χ : Type) : Machine (mutexSig Unit) τ χ (Option τ) where
  exec := lockExec

/-! ### The generic implementation -/

/-- `struct tt_mutex_t` without `TT_CAP_MUTEX`: the bytes of `lock`, lowest address first,
and `initialized`.  The pointer has `w + 1` bytes. -/
structure SpinMutex (w : Nat) : Type where
  lock : Fin (w + 1) → UInt8
  initialized : Bool

/-- What the generic functions do to a mutex in one atomic step. -/
inductive SpinOp (M : Type) : Type
  | readInitialized (m : M)
  | writeInitialized (m : M) (b : Bool)
  /-- `mutex->lock = TT_MUTEX_UNLOCKED` -/
  | storeUnlocked (m : M)
  /-- `__atomic_test_and_set(&mutex->lock, __ATOMIC_SEQ_CST)` -/
  | testAndSet (m : M)
  /-- `while (__atomic_test_and_set(&mutex->lock, __ATOMIC_SEQ_CST)) {}` -/
  | spinTestAndSet (m : M)
  /-- `__atomic_clear(&mutex->lock, __ATOMIC_SEQ_CST)` -/
  | clear (m : M)
  /-- `__atomic_load_n(&mutex->lock, __ATOMIC_SEQ_CST)` -/
  | load (m : M)
  deriving DecidableEq

/-- The answers; a loaded word answers with its bytes. -/
@[reducible] def SpinOp.Res (w : Nat) {M : Type} : SpinOp M → Type
  | .readInitialized _ | .testAndSet _ | .spinTestAndSet _ => Bool
  | .writeInitialized _ _ | .storeUnlocked _ | .clear _ => Unit
  | .load _ => Fin (w + 1) → UInt8

abbrev spinSig (M : Type) (w : Nat) : Sig := ⟨SpinOp M, SpinOp.Res w⟩

variable {M : Type} {w : Nat}

/-- A loaded `lock` as the condition of an `if`: not the null pointer. -/
def wordSet (bytes : Fin (w + 1) → UInt8) : Bool := decide (∃ i, bytes i ≠ 0)

/-- `tt_mutex_init`, generic. -/
def ttMutexInit (mutex : Option M) : Prog (spinSig M w) TtError :=
  match mutex with
  | none => .ret .nullPointer
  | some m =>
      .step (.storeUnlocked m) fun _ =>
      .step (.writeInitialized m true) fun _ =>
      .ret .success

/-- `tt_mutex_destroy`, generic. -/
def ttMutexDestroy (mutex : Option M) : Prog (spinSig M w) TtError :=
  match mutex with
  | none => .ret .nullPointer
  | some m =>
      .step (.readInitialized m) fun initialized =>
      if !initialized then .ret .notInitialized else
      .step (.writeInitialized m false) fun _ =>
      .ret .success

/-- `tt_mutex_lock`, generic. -/
def ttMutexLock (mutex : Option M) : Prog (spinSig M w) TtError :=
  match mutex with
  | none => .ret .nullPointer
  | some m =>
      .step (.readInitialized m) fun initialized =>
      if !initialized then .ret .notInitialized else
      .step (.spinTestAndSet m) fun _ =>
      .ret .success

/-- `tt_mutex_unlock`, generic. -/
def ttMutexUnlock (mutex : Option M) : Prog (spinSig M w) TtError :=
  match mutex with
  | none => .ret .nullPointer
  | some m =>
      .step (.readInitialized m) fun initialized =>
      if !initialized then .ret .notInitialized else
      .step (.clear m) fun _ =>
      .ret .success

/-- `tt_mutex_trylock`, generic. -/
def ttMutexTrylock (mutex : Option M) : Prog (spinSig M w) TtError :=
  match mutex with
  | none => .ret .nullPointer
  | some m =>
      .step (.readInitialized m) fun initialized =>
      if !initialized then .ret .notInitialized else
      .step (.testAndSet m) fun wasSet =>
      if wasSet then .ret .busy else .ret .success

/-- `tt_mutex_is_locked`, generic. -/
def ttMutexIsLocked (mutex : Option M) : Prog (spinSig M w) Bool :=
  match mutex with
  | none => .ret false
  | some m =>
      .step (.readInitialized m) fun initialized =>
      if !initialized then .ret false else
      .step (.load m) fun lock =>
      if wordSet lock then .ret true else .ret false

/-- The generic implementation of the interface. -/
def spinMutex : (c : MutexCall M) → Prog (spinSig M w) c.Res
  | .init m => ttMutexInit m
  | .destroy m => ttMutexDestroy m
  | .lock m => ttMutexLock m
  | .unlock m => ttMutexUnlock m
  | .trylock m => ttMutexTrylock m
  | .isLocked m => ttMutexIsLocked m

/-! ### The machine -/

/-- The byte a test-and-set leaves behind (`__GCC_ATOMIC_TEST_AND_SET_TRUEVAL`). -/
def setByte : UInt8 := 1

/-- The lock word after its first byte was written. -/
def SpinMutex.setFirst (x : SpinMutex w) (b : UInt8) : SpinMutex w :=
  { x with lock := Function.update x.lock 0 b }

/-- One sequentially consistent step on the mutexes.  No environment choice is involved. -/
def spinExec [DecidableEq M] {τ : Type} (_ : Unit) (_ : τ) :
    (p : SpinOp M) → (M → SpinMutex w) → Option (SpinOp.Res w p × (M → SpinMutex w))
  | .readInitialized m, s => some ((s m).initialized, s)
  | .writeInitialized m b, s =>
      some ((), Function.update s m { s m with initialized := b })
  | .storeUnlocked m, s => some ((), Function.update s m { s m with lock := fun _ => 0 })
  | .testAndSet m, s =>
      some (decide ((s m).lock 0 ≠ 0), Function.update s m ((s m).setFirst setByte))
  | .spinTestAndSet m, s =>
      some (decide ((s m).lock 0 ≠ 0), Function.update s m ((s m).setFirst setByte))
  | .clear m, s => some ((), Function.update s m ((s m).setFirst 0))
  | .load m, s => some ((s m).lock, s)

/-- Only the spin loop repeats its primitive, as long as the byte was set. -/
def SpinOp.again : (p : SpinOp M) → SpinOp.Res w p → Bool
  | .spinTestAndSet _, wasSet => wasSet
  | _, _ => false

def spinMachine (M : Type) [DecidableEq M] (w : Nat) (τ : Type) :
    Machine (spinSig M w) τ Unit (M → SpinMutex w) where
  exec := spinExec
  again := SpinOp.again

/-- Threads calling the generic mutex functions. -/
def spinSys (M : Type) [DecidableEq M] (w : Nat) (τ : Type) :
    Sys (spinSig M w) τ Unit (M → SpinMutex w) (MutexCall M) TtVal where
  toMachine := spinMachine M w τ
  body c := do return c.val (← spinMutex c)

end TinyTools
