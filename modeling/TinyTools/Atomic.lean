/-
Atomic integers (`tt_atomic.h`, `tt_atomic.c`).

Every function is one GCC builtin behind a test for `NULL`.  The builtin is handed
the `tt_memory_order_t` as the number it is, so what order it works under is decided
by GCC's numbering of its own orders, `MemoryOrder.ofNumber`.
-/
import TinyTools.Lib.Pool
import TinyTools.Types

namespace TinyTools

open Interleave

/-! ### Memory orders -/

/-- The memory orders of C11. -/
inductive MemoryOrder : Type
  | relaxed
  | consume
  | acquire
  | release
  | acqRel
  | seqCst
  deriving DecidableEq

namespace MemoryOrder

/-- `__ATOMIC_RELAXED` to `__ATOMIC_SEQ_CST`. -/
def ofNumber : Nat → Option MemoryOrder
  | 0 => some relaxed
  | 1 => some consume
  | 2 => some acquire
  | 3 => some release
  | 4 => some acqRel
  | 5 => some seqCst
  | _ => none

/-- Of acquire strength or more. -/
def acquires : MemoryOrder → Bool
  | acquire | acqRel | seqCst => true
  | relaxed | consume | release => false

/-- Of release strength or more. -/
def releases : MemoryOrder → Bool
  | release | acqRel | seqCst => true
  | relaxed | consume | acquire => false

/-- A load may have this order. -/
def forLoad : MemoryOrder → Bool
  | relaxed | consume | acquire | seqCst => true
  | release | acqRel => false

/-- A store may have this order. -/
def forStore : MemoryOrder → Bool
  | relaxed | release | seqCst => true
  | consume | acquire | acqRel => false

end MemoryOrder

/-- `tt_memory_order_t`. -/
inductive TtMemoryOrder : Type
  | relaxed
  | acquire
  | release
  | acqRel
  | seqCst
  deriving DecidableEq

/-- The enumerators' values. -/
def TtMemoryOrder.value : TtMemoryOrder → Nat
  | relaxed => 0
  | acquire => 1
  | release => 2
  | acqRel => 3
  | seqCst => 4

/-! ### The builtins -/

/-- The builtins on `value` of the atomics in `A`; `E` are the places of `*expected`. -/
inductive AtomicOp (A E : Type) : Type
  /-- `__atomic_load_n` -/
  | load (ptr : A) (order : Nat)
  /-- `__atomic_store_n` -/
  | store (ptr : A) (val : Int32) (order : Nat)
  /-- `__atomic_fetch_add` -/
  | fetchAdd (ptr : A) (val : Int32) (order : Nat)
  /-- `__atomic_fetch_sub` -/
  | fetchSub (ptr : A) (val : Int32) (order : Nat)
  /-- `__atomic_compare_exchange_n` -/
  | compareExchange (ptr : A) (expected : E) (desired : Int32) (weak : Bool)
      (success failure : Nat)
  deriving DecidableEq

@[reducible] def AtomicOp.Res {A E : Type} : AtomicOp A E → Type
  | .load _ _ | .fetchAdd _ _ _ | .fetchSub _ _ _ => Int32
  | .store _ _ _ => Unit
  | .compareExchange _ _ _ _ _ _ => Bool

abbrev atomicSig (A E : Type) : Sig := ⟨AtomicOp A E, AtomicOp.Res⟩

variable {A E : Type}

/-- `ATOMIC_LOAD`. -/
def atomicLoad (ptr : A) (order : TtMemoryOrder) : AtomicOp A E := .load ptr order.value

/-- `ATOMIC_STORE`. -/
def atomicStore (ptr : A) (val : Int32) (order : TtMemoryOrder) : AtomicOp A E :=
  .store ptr val order.value

/-- `ATOMIC_ADD`. -/
def atomicAdd (ptr : A) (val : Int32) (order : TtMemoryOrder) : AtomicOp A E :=
  .fetchAdd ptr val order.value

/-- `ATOMIC_SUB`. -/
def atomicSub (ptr : A) (val : Int32) (order : TtMemoryOrder) : AtomicOp A E :=
  .fetchSub ptr val order.value

/-- `ATOMIC_CAS`. -/
def atomicCas (ptr : A) (expected : E) (desired : Int32) (order : TtMemoryOrder) :
    AtomicOp A E :=
  .compareExchange ptr expected desired false order.value order.value

/-! ### The functions -/

/-- A `tt_error_t` returned as an `int32_t`. -/
def TtError.toInt32 (e : TtError) : Int32 := Int32.ofNat e.ctorIdx

/-- `tt_atomic_load`. -/
def ttAtomicLoad (atomic : Option A) (order : TtMemoryOrder) : Prog (atomicSig A E) Int32 :=
  match atomic with
  | none => .ret TtError.nullPointer.toInt32
  | some a =>
      .step (atomicLoad a order) fun value =>
      .ret value

/-- `tt_atomic_store`. -/
def ttAtomicStore (atomic : Option A) (value : Int32) (order : TtMemoryOrder) :
    Prog (atomicSig A E) TtError :=
  match atomic with
  | none => .ret .nullPointer
  | some a =>
      .step (atomicStore a value order) fun _ =>
      .ret .success

/-- `tt_atomic_add`. -/
def ttAtomicAdd (atomic : Option A) (value : Int32) (order : TtMemoryOrder) :
    Prog (atomicSig A E) Int32 :=
  match atomic with
  | none => .ret TtError.nullPointer.toInt32
  | some a =>
      .step (atomicAdd a value order) fun previous =>
      .ret previous

/-- `tt_atomic_sub`. -/
def ttAtomicSub (atomic : Option A) (value : Int32) (order : TtMemoryOrder) :
    Prog (atomicSig A E) Int32 :=
  match atomic with
  | none => .ret TtError.nullPointer.toInt32
  | some a =>
      .step (atomicSub a value order) fun previous =>
      .ret previous

/-- `tt_atomic_compare_exchange`. -/
def ttAtomicCompareExchange (atomic : Option A) (expected : Option E) (desired : Int32)
    (order : TtMemoryOrder) : Prog (atomicSig A E) Bool :=
  match atomic, expected with
  | some a, some e =>
      .step (atomicCas a e desired order) fun exchanged =>
      .ret exchanged
  | none, _ | some _, none => .ret false

/-! ### Threads calling them -/

/-- The functions of `tt_atomic.h` that take an atomic and an order. -/
inductive AtomicCall (A E : Type) : Type
  | load (atomic : Option A) (order : TtMemoryOrder)
  | store (atomic : Option A) (value : Int32) (order : TtMemoryOrder)
  | add (atomic : Option A) (value : Int32) (order : TtMemoryOrder)
  | sub (atomic : Option A) (value : Int32) (order : TtMemoryOrder)
  | compareExchange (atomic : Option A) (expected : Option E) (desired : Int32)
      (order : TtMemoryOrder)
  deriving DecidableEq

/-- What they return. -/
inductive AtomicVal : Type
  | int (n : Int32)
  | err (e : TtError)
  | bool (b : Bool)
  deriving DecidableEq

def AtomicCall.body : AtomicCall A E → Prog (atomicSig A E) AtomicVal
  | .load a o => do return .int (← ttAtomicLoad a o)
  | .store a v o => do return .err (← ttAtomicStore a v o)
  | .add a v o => do return .int (← ttAtomicAdd a v o)
  | .sub a v o => do return .int (← ttAtomicSub a v o)
  | .compareExchange a e d o => do return .bool (← ttAtomicCompareExchange a e d o)

/-- Threads calling them, over a memory `M` that performs the builtins. -/
def atomicSys {τ χ σ : Type} (M : Machine (atomicSig A E) τ χ σ) :
    Sys (atomicSig A E) τ χ σ (AtomicCall A E) AtomicVal where
  toMachine := M
  body := AtomicCall.body

/-! ### A memory -/

/-- The atomics' values, and what `*expected` holds. -/
structure AtomicMem (A E : Type) : Type where
  value : A → Int32
  expected : E → Int32

/-- Each builtin as one step, arithmetic wrapping around. -/
def atomicExec [DecidableEq A] [DecidableEq E] {τ : Type} (_ : Unit) (_ : τ) :
    (p : AtomicOp A E) → AtomicMem A E → Option (p.Res × AtomicMem A E)
  | .load a _, s => some (s.value a, s)
  | .store a v _, s => some ((), { s with value := Function.update s.value a v })
  | .fetchAdd a v _, s =>
      some (s.value a, { s with value := Function.update s.value a (s.value a + v) })
  | .fetchSub a v _, s =>
      some (s.value a, { s with value := Function.update s.value a (s.value a - v) })
  | .compareExchange a e d _ _ _, s =>
      if s.value a = s.expected e then
        some (true, { s with value := Function.update s.value a d })
      else some (false, { s with expected := Function.update s.expected e (s.value a) })

def atomicMachine (A E : Type) [DecidableEq A] [DecidableEq E] (τ : Type) :
    Machine (atomicSig A E) τ Unit (AtomicMem A E) where
  exec := atomicExec

/-- `tt_atomic_init`, a plain assignment. -/
def ttAtomicInit [DecidableEq A] (atomic : Option A) (value : Int32) (s : AtomicMem A E) :
    TtError × AtomicMem A E :=
  match atomic with
  | none => (.nullPointer, s)
  | some a => (.success, { s with value := Function.update s.value a value })

end TinyTools
