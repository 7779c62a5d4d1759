/-
Threads on Linux (`tt_platform_linux.c`, the part under `TT_CAP_THREADS`).

A thread record is a `tt_thread_t` on the heap; what the functions read of it is its
state, its handle and `is_active`.  Each access to a field is one step, and so is each
call of the allocator, of pthreads and of the thread table, whose functions run under
their own mutex (`ThreadInternal.lean`).

The OS keeps a thread for every successful `pthread_create` and knows it by its
handle.  A handle is given out again only once its thread has been joined.  The
environment decides which address `malloc` returns among those not allocated, which
free handle a new thread gets, and whether a pthread function succeeds.

An access to a record that has been freed is not excluded: a read then answers
anything, a write is lost or changes whatever record has been allocated there since.
-/
import TinyTools.ThreadInternal

namespace TinyTools

open Interleave

/-! ### Records and the table interface -/

/-- `tt_thread_state_t`. -/
inductive TtThreadState : Type
  | created
  | running
  | suspended
  | terminated
  deriving DecidableEq

/-- `tt_thread_priority_t`. -/
inductive TtThreadPriority : Type
  | low
  | normal
  | high
  | realtime
  deriving DecidableEq

/-- `tt_thread_attr_t`. -/
structure TtThreadAttr : Type where
  priority : TtThreadPriority
  stackSize : Nat
  name : Option String
  deriving DecidableEq

/-- `tt_thread_t` without `retval`.  `handle` is `none` until `pthread_create` has stored one. -/
structure TtThread (H : Type) : Type where
  handle : Option H
  state : TtThreadState
  priority : TtThreadPriority
  func : Addr
  arg : Option Addr
  name : Option String
  stackSize : Nat
  isActive : Bool
  deriving DecidableEq

/-- An assignment to a field of a record. -/
inductive RecordWrite : Type
  | state (state : TtThreadState)
  | priority (priority : TtThreadPriority)
  | func (func : Addr)
  | arg (arg : Option Addr)
  | name (name : Option String)
  | stackSize (stackSize : Nat)
  | isActive (isActive : Bool)
  deriving DecidableEq

def TtThread.write {H : Type} (r : TtThread H) : RecordWrite → TtThread H
  | .state state => { r with state := state }
  | .priority priority => { r with priority := priority }
  | .func func => { r with func := func }
  | .arg arg => { r with arg := arg }
  | .name name => { r with name := name }
  | .stackSize stackSize => { r with stackSize := stackSize }
  | .isActive isActive => { r with isActive := isActive }

@[simp] theorem TtThread.write_handle {H : Type} (r : TtThread H) (w : RecordWrite) :
    (r.write w).handle = r.handle := by
  cases w <;> rfl

/-- What a table function returns to its caller. -/
@[reducible] def TableCall.Res {H : Type} : TableCall H → Type
  | .findByHandle _ => Option Addr
  | .init | .cleanup | .register _ | .unregister _ => TtError

/-- The functions of the thread table as primitives of a caller. -/
abbrev tableCallSig (H : Type) : Sig := ⟨TableCall H, TableCall.Res⟩

/-- What the thread functions do in one step.  The pthread functions answer whether they
returned 0. -/
inductive ThreadOp (H : Type) : Type
  | malloc
  | free (p : Addr)
  | write (p : Addr) (w : RecordWrite)
  | readState (p : Addr)
  | readIsActive (p : Addr)
  | readHandle (p : Addr)
  /-- `*thread = new_thread`, `thread` being the address `v` -/
  | writeVar (v : Addr) (p : Addr)
  | pthreadAttrInit
  | pthreadAttrSetstacksize (stackSize : Nat)
  | pthreadAttrDestroy
  /-- `pthread_create(&p->handle, &pthread_attr, func, arg)`; `none` for the default stack size -/
  | pthreadCreate (p : Addr) (stackSize : Option Nat) (func : Addr) (arg : Option Addr)
  | pthreadJoin (handle : Option H)
  | pthreadDetach (handle : Option H)
  deriving DecidableEq

@[reducible] def ThreadOp.Res {H : Type} : ThreadOp H → Type
  | .malloc => Option Addr
  | .readState _ => TtThreadState
  | .readHandle _ => Option H
  | .readIsActive _ | .pthreadAttrInit | .pthreadAttrSetstacksize _ | .pthreadCreate _ _ _ _
  | .pthreadJoin _ | .pthreadDetach _ => Bool
  | .free _ | .write _ _ | .writeVar _ _ | .pthreadAttrDestroy => Unit

abbrev threadOpSig (H : Type) : Sig := ⟨ThreadOp H, ThreadOp.Res⟩

/-- Records, pthreads, and the table functions. -/
abbrev threadSig (H : Type) : Sig := (threadOpSig H).sum (tableCallSig (Option H))

variable {N : Nat} {H : Type}

/-! ### The functions -/

/-- The end of `tt_platform_thread_create`, `stackSize` having been set in the attributes. -/
def pthreadCreateWith (thread : Addr) (stackSize : Option Nat) (func : Addr) (arg : Option Addr) :
    Prog (threadSig H) TtError :=
  .step (.inl (.write thread (.state .created))) fun _ =>
  .step (.inl (.pthreadCreate thread stackSize func arg)) fun (ok : Bool) =>
  .step (.inl .pthreadAttrDestroy) fun _ =>
  .ret (if ok then .success else .threadCreate)

/-- `tt_platform_thread_create`. -/
def ttPlatformThreadCreate (thread : Option Addr) (attr : Option TtThreadAttr)
    (func : Option Addr) (arg : Option Addr) : Prog (threadSig H) TtError :=
  match thread, func with
  | some thread, some func =>
      .step (.inl .pthreadAttrInit) fun (ok : Bool) =>
      if !ok then .ret .threadCreate else
      match attr with
      | some attr =>
          if attr.stackSize > 0 then
            .step (.inl (.pthreadAttrSetstacksize attr.stackSize)) fun (ok : Bool) =>
            if !ok then .step (.inl .pthreadAttrDestroy) fun _ => .ret .threadCreate
            else pthreadCreateWith thread (some attr.stackSize) func arg
          else pthreadCreateWith thread none func arg
      | none => pthreadCreateWith thread none func arg
  | _, _ => .ret .nullPointer

/-- `tt_platform_thread_join`. -/
def ttPlatformThreadJoin (thread : Option Addr) : Prog (threadSig H) TtError :=
  match thread with
  | none => .ret .nullPointer
  | some thread =>
      .step (.inl (.readHandle thread)) fun (handle : Option H) =>
      .step (.inl (.pthreadJoin handle)) fun (ok : Bool) =>
      if ok then
        .step (.inl (.write thread (.state .terminated))) fun _ =>
        .step (.inl (.write thread (.isActive false))) fun _ =>
        .ret .success
      else .ret .threadJoin

/-- `tt_platform_thread_destroy`. -/
def ttPlatformThreadDestroy (thread : Option Addr) : Prog (threadSig H) TtError :=
  match thread with
  | none => .ret .nullPointer
  | some thread =>
      .step (.inl (.readState thread)) fun (state : TtThreadState) =>
      if state ≠ .terminated then .ret .threadActive else
      .step (.inr (.unregister (some thread))) fun (result : TtError) =>
      if result ≠ .success then .ret result else
      .step (.inl (.readIsActive thread)) fun (isActive : Bool) =>
      if isActive then
        .step (.inl (.readHandle thread)) fun (handle : Option H) =>
        .step (.inl (.pthreadDetach handle)) fun (ok : Bool) =>
        if !ok then .ret .threadDetach else
        .step (.inl (.write thread (.isActive false))) fun _ =>
        .step (.inl (.free thread)) fun _ => .ret .success
      else
        .step (.inl (.free thread)) fun _ => .ret .success

/-- `pthread_self` -/
abbrev selfSig (H : Type) : Sig := ⟨Unit, fun _ => H⟩

/-- `tt_platform_thread_self`. -/
def ttPlatformThreadSelf : Prog ((selfSig H).sum (tableCallSig (Option H))) (Option Addr) :=
  .step (.inl ()) fun (handle : H) =>
  .step (.inr (.findByHandle (some handle))) .ret

/-! ### The machine -/

/-- Whether a thread of the OS has been waited for or let go. -/
inductive OsStatus : Type
  | joinable
  | joined
  | detached
  deriving DecidableEq

/-- A thread of the OS: what `pthread_create` was given, and the handle it stored in `record`. -/
structure OsThread (H : Type) : Type where
  handle : H
  record : Addr
  stackSize : Option Nat
  func : Addr
  arg : Option Addr
  status : OsStatus
  deriving DecidableEq

/-- The heap, the clients' variables, the thread table, and the threads of the OS, the latest
first. -/
structure ThreadState (N : Nat) (H : Type) : Type where
  mem : Addr → Option (TtThread H)
  vars : Addr → Option Addr
  table : Table N
  os : List (OsThread H)

namespace ThreadState

/-- Program start. -/
def zero : ThreadState N H := ⟨fun _ => none, fun _ => none, .zero N, []⟩

/-- The OS thread started for the record now at `a`. -/
def startedFor (s : ThreadState N H) (a : Addr) : Option (OsThread H) :=
  s.os.find? fun o => o.record = a

/-- The handle stored in the record at `a`. -/
def handleOf (s : ThreadState N H) (a : Addr) : Option H := (s.mem a).bind (·.handle)

def setMem (s : ThreadState N H) (a : Addr) (r : Option (TtThread H)) : ThreadState N H :=
  { s with mem := Function.update s.mem a r }

@[simp] theorem setMem_mem_self (s : ThreadState N H) (a : Addr) (r : Option (TtThread H)) :
    (s.setMem a r).mem a = r := Function.update_self ..

theorem setMem_mem_of_ne (s : ThreadState N H) {a b : Addr} (hb : b ≠ a)
    (r : Option (TtThread H)) : (s.setMem a r).mem b = s.mem b := Function.update_of_ne hb ..

/-- A new OS thread, whose handle is stored in its record. -/
def spawn (s : ThreadState N H) (o : OsThread H) : ThreadState N H :=
  { s.setMem o.record ((s.mem o.record).map fun r => { r with handle := some o.handle }) with
    os := o :: s.os }

theorem startedFor_spawn_self (s : ThreadState N H) (o : OsThread H) :
    (s.spawn o).startedFor o.record = some o := by
  simp [spawn, startedFor]

theorem startedFor_spawn_of_ne (s : ThreadState N H) {o : OsThread H} {a : Addr}
    (ha : a ≠ o.record) : (s.spawn o).startedFor a = s.startedFor a := by
  unfold startedFor spawn
  rw [List.find?_cons_of_neg (by simpa using ha.symm)]

variable [DecidableEq H]

/-- Handle `h` belongs to a thread not joined yet. -/
def taken (s : ThreadState N H) (h : H) : Bool :=
  s.os.any fun o => decide (o.handle = h ∧ o.status ≠ .joined)

/-- Handle `h` belongs to a thread that can be joined or detached. -/
def joinable (s : ThreadState N H) (h : H) : Bool :=
  s.os.any fun o => decide (o.handle = h ∧ o.status = .joinable)

/-- The joinable thread with handle `h` comes to `status`. -/
def reap (s : ThreadState N H) (h : H) (status : OsStatus) : ThreadState N H :=
  { s with os := s.os.map fun o =>
      if o.handle = h ∧ o.status = .joinable then { o with status := status } else o }

theorem startedFor_reap (s : ThreadState N H) (h : H) (status : OsStatus) (a : Addr) :
    (s.reap h status).startedFor a = (s.startedFor a).map fun o =>
      if o.handle = h ∧ o.status = .joinable then { o with status := status } else o := by
  have hrecord : ∀ o : OsThread H, decide ((if o.handle = h ∧ o.status = .joinable then
      { o with status := status } else o).record = a) = decide (o.record = a) := by
    intro o
    split <;> rfl
  unfold startedFor reap
  rw [List.find?_map]
  simp only [Function.comp_def, hrecord]

end ThreadState

/-- What the environment decides: an address and what is found there for `malloc`, a handle for
a new thread, success of a pthread function, what a read of freed memory answers. -/
inductive ThreadChoice (H : Type) : Type
  | ok
  | fail
  | block (a : Addr) (r : TtThread H)
  | handle (h : H)

variable [DecidableEq H]

/-- `pthread_join` and `pthread_detach`: they fail on a thread that is not joinable. -/
def reapExec (status : OsStatus) (x : ThreadChoice H) (handle : Option H) (s : ThreadState N H) :
    Bool × ThreadState N H :=
  match x, handle with
  | .ok, some h => if s.joinable h then (true, s.reap h status) else (false, s)
  | _, _ => (false, s)

/-- A read of the record at `p`. -/
def readExec {β : Type} (x : ThreadChoice H) (p : Addr) (field : TtThread H → β)
    (s : ThreadState N H) : Option (β × ThreadState N H) :=
  match s.mem p, x with
  | some r, _ => some (field r, s)
  | none, .block _ r => some (field r, s)
  | none, _ => none

/-- One step on records and pthreads. -/
def threadOpExec (x : ThreadChoice H) :
    (p : ThreadOp H) → ThreadState N H → Option (p.Res × ThreadState N H)
  | .malloc, s =>
      match x with
      | .block a r =>
          if s.mem a = none then some (some a, s.setMem a (some { r with handle := none }))
          else none
      | _ => some (none, s)
  | .free p, s => some ((), s.setMem p none)
  | .write p w, s => some ((), s.setMem p ((s.mem p).map (·.write w)))
  | .readState p, s => readExec x p TtThread.state s
  | .readIsActive p, s => readExec x p TtThread.isActive s
  | .readHandle p, s => readExec x p TtThread.handle s
  | .writeVar v p, s => some ((), { s with vars := Function.update s.vars v (some p) })
  | .pthreadAttrInit, s | .pthreadAttrSetstacksize _, s =>
      match x with
      | .ok => some (true, s)
      | _ => some (false, s)
  | .pthreadAttrDestroy, s => some ((), s)
  | .pthreadCreate p stackSize func arg, s =>
      match x with
      | .handle h =>
          if s.taken h then none
          else some (true, s.spawn ⟨h, p, stackSize, func, arg, .joinable⟩)
      | _ => some (false, s)
  | .pthreadJoin handle, s => some (reapExec .joined x handle s)
  | .pthreadDetach handle, s => some (reapExec .detached x handle s)

/-- A table function, in one go. -/
def tableCallExec :
    (c : TableCall (Option H)) → ThreadState N H → Option (c.Res × ThreadState N H)
  | .init, s | .cleanup, s => some (.success, { s with table := .zero N })
  | .register thread, s =>
      some ((s.table.register thread).1, { s with table := (s.table.register thread).2 })
  | .unregister thread, s =>
      some ((s.table.unregister thread).1, { s with table := (s.table.unregister thread).2 })
  | .findByHandle handle, s => some (s.table.findByHandle s.handleOf handle, s)

def threadMachine (N : Nat) (H : Type) [DecidableEq H] (τ : Type) :
    Machine (threadSig H) τ (ThreadChoice H) (ThreadState N H) where
  exec x _
    | .inl p, s => threadOpExec x p s
    | .inr c, s => tableCallExec c s

/-- `pthread_self` answers the handle of the thread that calls it. -/
def selfMachine {τ : Type} (self : τ → H) (χ : Type) : Machine (selfSig H) τ χ Unit where
  exec _ t _ s := some (self t, s)

/-! ### What a step can do -/

section Exec

variable {x : ThreadChoice H} {s s' : ThreadState N H}

theorem threadOpExec_malloc {p : Option Addr}
    (hexec : threadOpExec x .malloc s = some (p, s')) :
    (p = none ∧ s' = s) ∨ ∃ a, ∃ r : TtThread H, s.mem a = none ∧ p = some a ∧
      s' = s.setMem a (some { r with handle := none }) := by
  cases x with
  | block a r =>
      simp only [threadOpExec] at hexec
      split at hexec
      · rename_i hnone
        cases hexec
        exact Or.inr ⟨a, r, hnone, rfl, rfl⟩
      · cases hexec
  | _ =>
      cases hexec
      exact Or.inl ⟨rfl, rfl⟩

theorem threadOpExec_attr {p : ThreadOp H} {r : p.Res}
    (hp : p = .pthreadAttrInit ∨ ∃ n, p = .pthreadAttrSetstacksize n)
    (hexec : threadOpExec x p s = some (r, s')) : s' = s := by
  rcases hp with rfl | ⟨n, rfl⟩
  · cases x <;> cases hexec <;> rfl
  · cases x <;> cases hexec <;> rfl

theorem threadOpExec_pthreadCreate {p : Addr} {stackSize : Option Nat} {func : Addr}
    {arg : Option Addr} {ok : Bool}
    (hexec : threadOpExec x (.pthreadCreate p stackSize func arg) s = some (ok, s')) :
    (ok = false ∧ s' = s) ∨ ∃ h, s.taken h = false ∧ ok = true ∧
      s' = s.spawn ⟨h, p, stackSize, func, arg, .joinable⟩ := by
  cases x with
  | handle h =>
      simp only [threadOpExec] at hexec
      split at hexec
      · cases hexec
      · rename_i hfree
        cases hexec
        exact Or.inr ⟨h, by simpa using hfree, rfl, rfl⟩
  | _ =>
      cases hexec
      exact Or.inl ⟨rfl, rfl⟩

theorem reapExec_cases {status : OsStatus} {handle : Option H} {ok : Bool}
    (hexec : reapExec status x handle s = (ok, s')) :
    (ok = false ∧ s' = s) ∨ ∃ h, handle = some h ∧ s.joinable h = true ∧ ok = true ∧
      s' = s.reap h status := by
  unfold reapExec at hexec
  split at hexec
  · rename_i h
    split at hexec
    · rename_i hjoinable
      cases hexec
      exact Or.inr ⟨h, rfl, hjoinable, rfl, rfl⟩
    · cases hexec
      exact Or.inl ⟨rfl, rfl⟩
  · cases hexec
    exact Or.inl ⟨rfl, rfl⟩

omit [DecidableEq H] in
theorem readExec_cases {β : Type} {p : Addr} {field : TtThread H → β} {v : β}
    (hexec : readExec x p field s = some (v, s')) :
    s' = s ∧ ∀ r, s.mem p = some r → v = field r := by
  unfold readExec at hexec
  split at hexec
  · rename_i r _ hr
    cases hexec
    refine ⟨rfl, fun r' hr' => ?_⟩
    rw [hr] at hr'
    cases hr'
    rfl
  · rename_i r hnone
    cases hexec
    refine ⟨rfl, fun r' hr' => ?_⟩
    rw [hnone] at hr'
    cases hr'
  · cases hexec

end Exec

end TinyTools
