/-
The thread API (`tt_thread.c`), on Linux.
-/
import TinyTools.Platform.Linux.Mutex
import TinyTools.Platform.Linux.Thread

namespace TinyTools

open Interleave

variable {N : Nat} {H : Type}

/-- `TT_DEFAULT_STACK_SIZE` -/
def ttDefaultStackSize : Nat := 8 * 1024 * 1024

/-! ### The functions -/

/-- `tt_thread_init`. -/
def ttThreadInit : Prog (threadSig H) TtError := .step (.inr .init) .ret

/-- `tt_thread_create`, `thread` being the address of the client's variable. -/
def ttThreadCreate (thread : Option Addr) (attr : Option TtThreadAttr) (func : Option Addr)
    (arg : Option Addr) : Prog (threadSig H) TtError :=
  match thread, func with
  | some v, some func =>
      .step (.inl .malloc) fun (newThread : Option Addr) =>
      match newThread with
      | none => .ret .memory
      | some a =>
          .step (.inl (.write a (.func func))) fun _ =>
          .step (.inl (.write a (.arg arg))) fun _ =>
          .step (.inl (.write a (.state .created))) fun _ =>
          .step (.inl (.write a (.isActive true))) fun _ =>
          .step (.inl (.write a (.stackSize (attr.elim ttDefaultStackSize (·.stackSize))))) fun _ =>
          .step (.inl (.write a (.priority (attr.elim .normal (·.priority))))) fun _ =>
          .step (.inl (.write a (.name (attr.elim (some "tt_thread") (·.name))))) fun _ =>
          ttPlatformThreadCreate (some a) attr (some func) arg >>= fun result =>
          if result ≠ .success then .step (.inl (.free a)) fun _ => .ret result else
          .step (.inr (.register (some a))) fun (result : TtError) =>
          if result ≠ .success then
            ttPlatformThreadDestroy (some a) >>= fun _ =>
            .step (.inl (.free a)) fun _ => .ret result
          else
          .step (.inl (.writeVar v a)) fun _ =>
          .ret .success
  | _, _ => .ret .nullPointer

/-- `tt_thread_join`. -/
def ttThreadJoin (thread : Option Addr) : Prog (threadSig H) TtError := ttPlatformThreadJoin thread

/-- `tt_thread_destroy`. -/
def ttThreadDestroy (thread : Option Addr) : Prog (threadSig H) TtError :=
  ttPlatformThreadDestroy thread

/-- `tt_thread_get_state`: what it stores in `*state` with `TT_SUCCESS`, or its error. -/
def ttThreadGetState (thread state : Option Addr) :
    Prog (threadSig H) (Except TtError TtThreadState) :=
  match thread, state with
  | some thread, some _ =>
      .step (.inl (.readState thread)) fun (st : TtThreadState) => .ret (.ok st)
  | _, _ => .ret (.error .nullPointer)

/-- `tt_thread_self`. -/
def ttThreadSelf : Prog ((selfSig H).sum (tableCallSig (Option H))) (Option Addr) :=
  ttPlatformThreadSelf

/-! ### Calls and the system -/

/-- The functions clients call. -/
inductive ThreadCall (H : Type) : Type
  | init
  | create (thread : Option Addr) (attr : Option TtThreadAttr) (func : Option Addr)
      (arg : Option Addr)
  | join (thread : Option Addr)
  | destroy (thread : Option Addr)
  | findByHandle (handle : H)
  deriving DecidableEq

/-- The record a call was given. -/
def ThreadCall.record : ThreadCall H → Option Addr
  | .join thread | .destroy thread => thread
  | .init | .create _ _ _ _ | .findByHandle _ => none

def threadBody : ThreadCall H → Prog (threadSig H) TableVal
  | .init => do return .err (← ttThreadInit)
  | .create thread attr func arg => do return .err (← ttThreadCreate thread attr func arg)
  | .join thread => do return .err (← ttThreadJoin thread)
  | .destroy thread => do return .err (← ttThreadDestroy thread)
  | .findByHandle handle =>
      .step (.inr (.findByHandle (some handle))) fun thread => .ret (.thread thread)

/-- Threads calling the thread API. -/
def threadSys (N : Nat) (H : Type) [DecidableEq H] (τ : Type) :
    Sys (threadSig H) τ (ThreadChoice H) (ThreadState N H) (ThreadCall H) TableVal where
  toMachine := threadMachine N H τ
  body := threadBody

/-! ### Down to the steps of the table and of its mutex -/

/-- Records and pthreads, the slots of the table, and what the mutex functions do. -/
abbrev threadLinuxSig (N : Nat) (H : Type) : Sig :=
  (threadOpSig H).sum ((tableOpSig N (Option H)).sum (linuxMutexSig Unit))

/-- The table functions, as the thread functions call them. -/
def tableFunction [DecidableEq H] :
    (c : TableCall (Option H)) → Prog (tableSig N (Option H)) c.Res
  | .init => ttThreadTableInit
  | .cleanup => ttThreadTableCleanup
  | .register thread => ttThreadTableRegister thread
  | .unregister thread => ttThreadTableUnregister thread
  | .findByHandle handle => ttThreadTableFindByHandle handle

/-- Threads that ask for themselves, over the table and a mutex that works. -/
def threadSelfMachine (N : Nat) [DecidableEq H] (handleOf : Addr → Option H) {τ : Type}
    (self : τ → H) :
    Machine ((selfSig H).sum (tableSig N (Option H))) τ Unit (Unit × Table N × Option τ) :=
  (selfMachine self Unit).sum (tableSys N handleOf τ).toMachine

/-- One step on the table of a state. -/
def threadTableExec (x : ThreadChoice H) :
    (p : TableOp N) → ThreadState N H → Option (TableOp.Res (Option H) p × ThreadState N H)
  | .readHandle none, _ => none
  | .readHandle (some a), s => readExec x a TtThread.handle s
  | .readInUse i, s => some ((s.table i).inUse, s)
  | .writeInUse i b, s =>
      some ((), { s with table := Function.update s.table i { s.table i with inUse := b } })
  | .readThread i, s => some ((s.table i).thread, s)
  | .writeThread i t, s =>
      some ((), { s with table := Function.update s.table i { s.table i with thread := t } })

/-- One step, with what the environment chooses for either part of the state. -/
def threadLinuxMachine (N : Nat) (H : Type) [DecidableEq H] (τ : Type) :
    Machine (threadLinuxSig N H) τ (ThreadChoice H × LinuxChoice)
      (ThreadState N H × LinuxMutexes Unit τ) where
  exec x t
    | .inl p, s => (threadOpExec x.1 p s.1).map fun rs => (rs.1, rs.2, s.2)
    | .inr (.inl p), s => (threadTableExec x.1 p s.1).map fun rs => (rs.1, rs.2, s.2)
    | .inr (.inr p), s => (linuxMutexExec x.2 t p s.2).map fun rs => (rs.1, s.1, rs.2)

/-- Threads calling the thread API, the table functions and the mutex functions linked in. -/
def threadLinuxSys (N : Nat) (H : Type) [DecidableEq H] (τ : Type) :
    Sys (threadLinuxSig N H) τ (ThreadChoice H × LinuxChoice)
      (ThreadState N H × LinuxMutexes Unit τ) (ThreadCall H) TableVal where
  toMachine := threadLinuxMachine N H τ
  body c := (threadBody c).link fun c => (tableFunction c).link linuxMutex

/-- `pthread_mutex_lock` and `pthread_mutex_unlock` do not fail. -/
def lockSteady (x : ThreadChoice H × LinuxChoice) :
    (threadLinuxSig N H).Op → ThreadChoice H × LinuxChoice
  | .inr (.inr (.pthreadMutexLock _)) | .inr (.inr (.pthreadMutexUnlock _)) => (x.1, .ok)
  | _ => x

/-- The same where locking and unlocking an initialised mutex succeeds. -/
def threadSteadySys (N : Nat) (H : Type) [DecidableEq H] (τ : Type) :
    Sys (threadLinuxSig N H) τ (ThreadChoice H × LinuxChoice)
      (ThreadState N H × LinuxMutexes Unit τ) (ThreadCall H) TableVal where
  toMachine := (threadLinuxMachine N H τ).under lockSteady
  body := (threadLinuxSys N H τ).body

/-! ### What the functions do not do -/

namespace ThreadBody

/-- Other than the initialisation of the table. -/
def NotInit (p : (threadSig H).Op) : Prop := p ≠ .inr .init

theorem every_platformThreadCreate (thread : Option Addr) (attr : Option TtThreadAttr)
    (func arg : Option Addr) :
    (ttPlatformThreadCreate thread attr func arg : Prog (threadSig H) TtError).Every NotInit := by
  have hwith : ∀ a n f, (pthreadCreateWith a n f arg : Prog (threadSig H) TtError).Every NotInit :=
    fun _ _ _ => ⟨nofun, fun _ => ⟨nofun, fun _ => ⟨nofun, fun _ => trivial⟩⟩⟩
  unfold ttPlatformThreadCreate
  split
  · refine ⟨nofun, fun ok => Prog.every_ite trivial ?_⟩
    cases attr with
    | none => exact hwith _ _ _
    | some attr =>
        refine Prog.every_ite ⟨nofun, fun ok => Prog.every_ite ⟨nofun, fun _ => trivial⟩ ?_⟩ ?_
        · exact hwith _ _ _
        · exact hwith _ _ _
  · trivial

theorem every_platformThreadDestroy (thread : Option Addr) :
    (ttPlatformThreadDestroy thread : Prog (threadSig H) TtError).Every NotInit := by
  cases thread with
  | none => trivial
  | some a =>
      refine ⟨nofun, fun state => Prog.every_ite trivial ⟨nofun, fun result => ?_⟩⟩
      refine Prog.every_ite trivial ⟨nofun, fun isActive => Prog.every_ite ?_ ?_⟩
      · refine ⟨nofun, fun handle => ⟨nofun, fun ok => Prog.every_ite trivial ?_⟩⟩
        exact ⟨nofun, fun _ => ⟨nofun, fun _ => trivial⟩⟩
      · exact ⟨nofun, fun _ => trivial⟩

theorem every_threadCreate (thread : Option Addr) (attr : Option TtThreadAttr)
    (func arg : Option Addr) :
    (ttThreadCreate thread attr func arg : Prog (threadSig H) TtError).Every NotInit := by
  unfold ttThreadCreate
  split
  · refine ⟨nofun, fun newThread => ?_⟩
    cases newThread with
    | none => trivial
    | some a =>
        refine ⟨nofun, fun _ => ⟨nofun, fun _ => ⟨nofun, fun _ => ⟨nofun, fun _ => ⟨nofun, fun _ =>
          ⟨nofun, fun _ => ⟨nofun, fun _ => ?_⟩⟩⟩⟩⟩⟩⟩
        refine (every_platformThreadCreate _ _ _ _).bind fun result => ?_
        refine Prog.every_ite ⟨nofun, fun _ => trivial⟩ ⟨nofun, fun registered => ?_⟩
        refine Prog.every_ite ?_ ⟨nofun, fun _ => trivial⟩
        exact (every_platformThreadDestroy _).bind fun _ => ⟨nofun, fun _ => trivial⟩
  · trivial

theorem every_threadJoin (thread : Option Addr) :
    (ttThreadJoin thread : Prog (threadSig H) TtError).Every NotInit := by
  cases thread with
  | none => trivial
  | some a =>
      refine ⟨nofun, fun handle => ⟨nofun, fun ok => Prog.every_ite ?_ trivial⟩⟩
      exact ⟨nofun, fun _ => ⟨nofun, fun _ => trivial⟩⟩

theorem every_body {c : ThreadCall H} (hc : c ≠ .init) : (threadBody c).Every NotInit := by
  cases c with
  | init => exact absurd rfl hc
  | create thread attr func arg => exact (every_threadCreate _ _ _ _).bind fun _ => trivial
  | join thread => exact (every_threadJoin thread).bind fun _ => trivial
  | destroy thread => exact (every_platformThreadDestroy thread).bind fun _ => trivial
  | findByHandle handle => exact ⟨nofun, fun _ => trivial⟩

end ThreadBody

/-! ### A create that succeeds -/

/-- What the environment chooses in a `tt_thread_create` with default attributes that gets the
block `a` and the handle `h`, and comes to `steps` steps after that. -/
def createChoices (a h steps : Nat) : List (ThreadChoice Nat) :=
  .block a ⟨none, .created, .normal, 0, none, none, 0, false⟩ :: List.replicate 9 .ok ++
    .handle h :: List.replicate steps .ok

/-- All of it, by thread `t`. -/
def createLabels (t a h : Nat) : List (Label Nat (ThreadChoice Nat) (ThreadCall Nat)) :=
  .call t (.create (some 1) none (some 7) none) :: (createChoices a h 3).map (.prim t) ++ [.ret t]

end TinyTools
