/-
Thread priorities on Linux (`tt_platform_thread_set_priority`), and what the OS knows of
a thread besides its handle.

The other thread functions are run as they are in `Thread.lean`.  Beside the records
and the threads there is now, for every handle, what the scheduler has on the latest
thread that was given it.  A new thread gets the stack size in its attributes, or the
default of the OS, and a priority that nothing in the attributes decides, as
`tt_platform_thread_create` sets none there.

`tt_platform_thread_set_priority` casts the handle to a pointer and reads the handle to
use through it.  What it finds there is up to the environment, and so is the value of
an `int` operation that overflows.
-/
import TinyTools.Thread

namespace TinyTools

open Interleave

/-- `INT_MIN` -/
def intMin : Int := -2147483648

/-- `INT_MAX` -/
def intMax : Int := 2147483647

/-- The level that an `int` stands for, if any. -/
def TtThreadPriority.ofInt : Int → Option TtThreadPriority
  | 0 => some .low
  | 1 => some .normal
  | 2 => some .high
  | 3 => some .realtime
  | _ => none

/-- The `int` of a level. -/
def TtThreadPriority.toInt : TtThreadPriority → Int
  | .low => 0
  | .normal => 1
  | .high => 2
  | .realtime => 3

theorem TtThreadPriority.ofInt_eq_some {n : Int} {level : TtThreadPriority} :
    TtThreadPriority.ofInt n = some level ↔ n = level.toInt := by
  refine ⟨?_, ?_⟩
  · intro h
    unfold TtThreadPriority.ofInt at h
    split at h <;> cases h <;> rfl
  · rintro rfl
    cases level <;> rfl

/-- What `tt_platform_thread_set_priority` does besides accessing the record.
`pthread_setschedparam` answers whether it returned 0. -/
inductive SchedOp (H : Type) : Type
  | schedGetPriorityMin
  | schedGetPriorityMax
  /-- An `int` operation whose result is not an `int`. -/
  | overflow
  /-- `*pthread_handle`, `pthread_handle` being `(pthread_t *)thread->handle` -/
  | readPointer (handle : Option H)
  | pthreadSetschedparam (handle : H) (schedPriority : Int)
  deriving DecidableEq

@[reducible] def SchedOp.Res {H : Type} : SchedOp H → Type
  | .schedGetPriorityMin | .schedGetPriorityMax | .overflow => Int
  | .readPointer _ => H
  | .pthreadSetschedparam _ _ => Bool

abbrev schedOpSig (H : Type) : Sig := ⟨SchedOp H, SchedOp.Res⟩

/-- The scheduler, and what the other thread functions use. -/
abbrev schedSig (H : Type) : Sig := (schedOpSig H).sum (threadSig H)

variable {N : Nat} {H : Type}

/-! ### The functions -/

/-- The result of an operation on `int`s that is `n` over the integers. -/
def intResult (n : Int) : Prog (schedSig H) Int :=
  if intMin ≤ n ∧ n ≤ intMax then .ret n else .step (.inl .overflow) .ret

/-- The `switch` in `tt_platform_thread_set_priority`. -/
def systemPriority (level : TtThreadPriority) (minPrio maxPrio : Int) : Prog (schedSig H) Int :=
  match level with
  | .low => .ret minPrio
  | .normal =>
      intResult (maxPrio - minPrio) >>= fun range =>
      intResult (minPrio + range.tdiv 3)
  | .high =>
      intResult (maxPrio - minPrio) >>= fun range =>
      intResult (2 * range) >>= fun twice =>
      intResult (minPrio + twice.tdiv 3)
  | .realtime => .ret maxPrio

/-- `tt_platform_thread_set_priority`. -/
def ttPlatformThreadSetPriority (thread : Option Addr) (priority : Int) :
    Prog (schedSig H) TtError :=
  match thread with
  | none => .ret .nullPointer
  | some thread =>
      .step (.inl .schedGetPriorityMin) fun (minPrio : Int) =>
      .step (.inl .schedGetPriorityMax) fun (maxPrio : Int) =>
      match TtThreadPriority.ofInt priority with
      | none => .ret .invalidParam
      | some level =>
          systemPriority level minPrio maxPrio >>= fun schedPriority =>
          .step (.inr (.inl (.readHandle thread))) fun (handle : Option H) =>
          .step (.inl (.readPointer handle)) fun (pthreadHandle : H) =>
          .step (.inl (.pthreadSetschedparam pthreadHandle schedPriority)) fun _ =>
          .step (.inr (.inl (.write thread (.priority level)))) fun _ =>
          .ret .success

/-- `tt_thread_set_priority`. -/
def ttThreadSetPriority (thread : Option Addr) (priority : Int) : Prog (schedSig H) TtError :=
  ttPlatformThreadSetPriority thread priority

/-! ### Calls -/

/-- The functions clients call. -/
inductive SchedCall (H : Type) : Type
  | threadCall (c : ThreadCall H)
  | setPriority (thread : Option Addr) (priority : Int)
  deriving DecidableEq

/-- The record a call was given. -/
def SchedCall.record : SchedCall H → Option Addr
  | .threadCall c => c.record
  | .setPriority thread _ => thread

def schedBody : SchedCall H → Prog (schedSig H) TableVal
  | .threadCall c => (threadBody c).inr
  | .setPriority thread priority => do return .err (← ttThreadSetPriority thread priority)

/-! ### The machine -/

/-- What the OS makes of a thread. -/
structure OsSched : Type where
  priority : Int
  stackSize : Nat
  ended : Bool

/-- What the OS answers to every thread: the range of `SCHED_OTHER`, and the stack size of a
thread that asks for none. -/
structure SchedConfig : Type where
  minPrio : Int
  maxPrio : Int
  defaultStackSize : Nat
  le : minPrio ≤ maxPrio
  lower : intMin ≤ minPrio
  upper : maxPrio ≤ intMax

/-- Linux, where `SCHED_OTHER` knows one priority. -/
def linuxSched : SchedConfig :=
  ⟨0, 0, 8 * 1024 * 1024, le_refl 0, by decide, by decide⟩

/-- Records, table and threads, what the OS has on the latest thread with each handle, and the
priority that the next thread gets. -/
structure SchedState (N : Nat) (H : Type) : Type where
  threads : ThreadState N H
  sched : H → OsSched
  inherited : Int

/-- What the environment decides: what `tt_mutex_init` returns in `tt_thread_init`, the result of
an overflow, the word a pointer leads to, and all that it decides for the other functions. -/
inductive SchedChoice (H : Type) : Type
  | thread (x : ThreadChoice H)
  | mutexInit (result : TtError)
  | int (n : Int)
  | word (handle : H)

def SchedChoice.base : SchedChoice H → ThreadChoice H
  | .thread x => x
  | .mutexInit _ | .int _ | .word _ => .ok

def SchedChoice.mutexResult : SchedChoice H → TtError
  | .mutexInit result => result
  | .thread _ | .int _ | .word _ => .success

/-- Program start. -/
def SchedState.zero : SchedState N H := ⟨.zero, fun _ => ⟨0, 0, true⟩, 0⟩

variable [DecidableEq H]

/-- Handle `h` is that of a thread that has neither been joined nor ended. -/
def SchedState.live (s : SchedState N H) (h : H) : Bool :=
  s.threads.taken h && !(s.sched h).ended

def SchedState.setPriority (s : SchedState N H) (h : H) (priority : Int) : SchedState N H :=
  { s with sched := Function.update s.sched h { s.sched h with priority := priority } }

/-- One step of `tt_platform_thread_set_priority` besides its accesses to the record.
`pthread_setschedparam` fails on a thread that has ended. -/
def schedOpExec (cfg : SchedConfig) (x : SchedChoice H) :
    (p : SchedOp H) → SchedState N H → Option (p.Res × SchedState N H)
  | .schedGetPriorityMin, s => some (cfg.minPrio, s)
  | .schedGetPriorityMax, s => some (cfg.maxPrio, s)
  | .overflow, s =>
      match x with
      | .int n => some (n, s)
      | _ => none
  | .readPointer _, s =>
      match x with
      | .word h => some (h, s)
      | _ => none
  | .pthreadSetschedparam h schedPriority, s =>
      match x with
      | .thread .ok =>
          if s.live h then some (true, s.setPriority h schedPriority) else some (false, s)
      | _ => some (false, s)

/-- What the OS has on its threads after a step of the other functions: a new thread is entered. -/
def spawnSched (cfg : SchedConfig) (s : SchedState N H) :
    (threadSig H).Op → SchedChoice H → H → OsSched
  | .inl (.pthreadCreate _ stackSize _ _), .thread (.handle h) =>
      Function.update s.sched h ⟨s.inherited, stackSize.getD cfg.defaultStackSize, false⟩
  | _, _ => s.sched

/-- One step of the other functions.  `tt_thread_init` leaves the table alone if it cannot
initialise its mutex. -/
def schedThreadExec (cfg : SchedConfig) (x : SchedChoice H) :
    (p : (threadSig H).Op) → SchedState N H → Option ((threadSig H).Res p × SchedState N H)
  | .inr .init, s =>
      some (x.mutexResult,
        if x.mutexResult = .success then { s with threads.table := .zero N } else s)
  | p, s =>
      ((threadMachine N H Unit).exec x.base () p s.threads).map fun rs =>
        (rs.1, ⟨rs.2, spawnSched cfg s p x, s.inherited⟩)

def schedMachine (cfg : SchedConfig) (N : Nat) (H : Type) [DecidableEq H] (τ : Type) :
    Machine (schedSig H) τ (SchedChoice H) (SchedState N H) where
  exec x _
    | .inl p, s => schedOpExec cfg x p s
    | .inr p, s => schedThreadExec cfg x p s

/-- A client of the thread API. -/
def schedSys (cfg : SchedConfig) (N : Nat) (H : Type) [DecidableEq H] (τ : Type) :
    Sys (schedSig H) τ (SchedChoice H) (SchedState N H) (SchedCall H) TableVal where
  toMachine := schedMachine cfg N H τ
  body := schedBody

/-- What goes on outside of the calls: a thread ends, and the caller, whose priority new threads
inherit, comes to another one. -/
inductive Outside : SchedState N H → SchedState N H → Prop
  | ends (s : SchedState N H) (h : H) :
      Outside s { s with sched := Function.update s.sched h { s.sched h with ended := true } }
  | inherits (s : SchedState N H) (priority : Int) : Outside s { s with inherited := priority }

/-! ### What a step can do -/

section Exec

variable {cfg : SchedConfig} {x : SchedChoice H} {s s' : SchedState N H}

theorem schedOpExec_pthreadSetschedparam {h : H} {schedPriority : Int} {ok : Bool}
    (hexec : schedOpExec cfg x (.pthreadSetschedparam h schedPriority) s = some (ok, s')) :
    (ok = false ∧ s' = s) ∨ (s.live h = true ∧ ok = true ∧ s' = s.setPriority h schedPriority) := by
  simp only [schedOpExec] at hexec
  split at hexec
  · split at hexec
    · rename_i hlive
      cases hexec
      exact Or.inr ⟨hlive, rfl, rfl⟩
    · cases hexec
      exact Or.inl ⟨rfl, rfl⟩
  · cases hexec
    exact Or.inl ⟨rfl, rfl⟩

theorem schedThreadExec_init {r : TtError}
    (hexec : schedThreadExec cfg x (.inr .init) s = some (r, s')) :
    (r ≠ .success ∧ s' = s) ∨ (r = .success ∧ s' = { s with threads.table := .zero N }) := by
  cases hexec
  by_cases hresult : x.mutexResult = .success
  · exact Or.inr ⟨hresult, if_pos hresult⟩
  · exact Or.inl ⟨hresult, if_neg hresult⟩

/-- But for `tt_thread_init`, a step on records and threads is what it is there. -/
theorem schedThreadExec_of_ne {p : (threadSig H).Op} (hp : p ≠ .inr .init) :
    schedThreadExec cfg x p s =
      ((threadMachine N H Unit).exec x.base () p s.threads).map fun rs =>
        (rs.1, ⟨rs.2, spawnSched cfg s p x, s.inherited⟩) := by
  rcases p with p | c
  · rfl
  · cases c with
    | init => exact absurd rfl hp
    | _ => rfl

end Exec

end TinyTools
