/-
The error context with its mutex linked in.

`errorSys` counts on a mutex that works.  What the library is compiled to has the
functions of `tt_mutex.c` in its place: a spinlock, or a pthread mutex behind a pointer.
Both are such a mutex, so the context is linearizable in either build, down to the steps
on the lock word or the pthread object.

The calls also complete.  A thread in its section never waits, and a thread outside
waits only for one that is inside: whoever is scheduled, there is always one of the calls
in progress that can go on, and they can do so only so often.
-/
import TinyTools.Proofs.Error
import TinyTools.Proofs.Mutex.Implement

namespace TinyTools

open Interleave

namespace Error

variable {F τ : Type} {b : MutexBuild}

/-! ### Initialising -/

/-- A `tt_error_init` that succeeds on an uninitialised context has initialised its mutex. -/
theorem returns_linked_init {t : τ} {s s' : TtErrorContext F × b.State τ}
    (hs : s.1.initialized = false)
    (hinit : ((errorMachine F τ b.Choice).sum (b.machine τ)).Returns t (ttErrorInit.link b.mutex) s
      .success s') :
    s'.1 = ⟨.success, none, true⟩ ∧
      (b.machine τ).Returns t (b.mutex (.init (some ()))) s.2 .success s'.2 := by
  obtain ⟨x, r, s₁, hexec, hinit⟩ := (Machine.returns_step_iff fun _ _ _ _ => rfl).mp hinit
  cases hexec
  simp only [hs, Bool.false_eq_true, if_false] at hinit
  obtain ⟨e, m, hmutex, hrest⟩ := Machine.returns_link_inr hinit
  by_cases he : e = .success
  · subst he
    simp only [ne_eq, not_true, if_false] at hrest
    obtain ⟨_, _, _, hexec, hrest⟩ := (Machine.returns_step_iff fun _ _ _ _ => rfl).mp hrest
    cases hexec
    obtain ⟨_, _, _, hexec, hrest⟩ := (Machine.returns_step_iff fun _ _ _ _ => rfl).mp hrest
    cases hexec
    obtain ⟨_, _, _, hexec, hrest⟩ := (Machine.returns_step_iff fun _ _ _ _ => rfl).mp hrest
    cases hexec
    obtain ⟨-, rfl⟩ := Machine.returns_ret_iff.mp hrest
    exact ⟨rfl, hmutex⟩
  · simp only [ne_eq, he, not_false_eq_true, if_true] at hrest
    exact absurd (Machine.returns_ret_iff.mp hrest).1 he

/-! ### The log, over what is seen -/

/-- The callbacks invoked among some accesses to `error_ctx`, with their arguments. -/
def callbacks (done : List (errorOpSig F).Done) : List (F × TtError) :=
  done.filterMap fun
    | ⟨.invoke f e, _⟩ => some (f, e)
    | _ => none

theorem invoked_eq (done : List (errorSig F).Done) :
    invoked done = callbacks (done.filterMap own) := by
  simp only [invoked, callbacks, List.filterMap_filterMap]
  refine List.filterMap_congr fun e _ => ?_
  rcases e with ⟨p | p, r⟩
  · cases p <;> rfl
  · rfl

/-- The calls of `L`, one after the other, explain what is seen of the calls in `tr`. -/
structure Explains (tr : List (Event (errorOpSig F) τ (ErrorCall F) TtVal))
    (calls : τ → Option (Nat × ErrorCall F))
    (L : List (LogEntry (errorSig F) τ (ErrorCall F) TtVal)) : Prop
    extends Orders tr calls L where
  /-- A completed call has returned and invoked what it did in `L`. -/
  returned : ∀ id t c a, .ret id t c a ∈ tr → ∃ e ∈ L, e.id = id ∧ e.thread = t ∧ e.call = c ∧
    e.val = a ∧ invoked e.done = callbacks (prims tr id)
  answers : ∀ L₁ e L₂, L = L₁ ++ e :: L₂ →
    Answers (L₁.map LogEntry.call) e.call e.val (invoked e.done)

/-- Over a mutex that works, calls are explained. -/
theorem explains [DecidableEq τ]
    {pl : Pool (errorSig F) τ (TtErrorContext F × Option τ) (ErrorCall F) TtVal}
    (h : (errorSys F τ).Reach (fun _ _ c => Using c) (⟨.success, none, true⟩, none) pl) :
    ∃ L, Explains (seen own pl.view.trace) pl.view.calls L := by
  have hstable : (locking F τ).stable (⟨.success, none, true⟩, none) := rfl
  obtain ⟨L, s', hlin, -, -, hdone⟩ :=
    Locking.linearizable hstable rfl (fun _ _ _ hc => shape_body hc) h
  have husing : ∀ id t c, .call id t c ∈ pl.view.trace → Using c :=
    h.call_mem (P := Using) fun _ _ _ hc => hc
  obtain ⟨-, hlock, hans⟩ :=
    of_sequential rfl hlin.legal fun e he => husing _ _ _ (hlin.called e he)
  refine ⟨L, hlin.orders hdone, ?_, hans⟩
  intro id t c a hret
  have hret := ret_mem_seen.mp hret
  rw [prims_seen, ← invoked_eq]
  rcases hlin.returned id t c a hret with hmem | ⟨hfree, hrun⟩
  · exact ⟨_, hmem, rfl, rfl, rfl, rfl, rfl⟩
  · -- no call returns without having locked
    have hcall : Using c := husing _ _ _ (h.books.ret_called id t c a hret)
    obtain ⟨-, hmem, -⟩ := run_body hcall rfl (hrun _ hstable)
    have hkind : LockKind.acquire = .free := hfree _ hmem
    cases hkind

/-! ### Completing -/

theorem uses_setLast (e : TtError) :
    (ttErrorSetLast e : Prog (errorSig F) TtError).Every (Levels.Uses (Lock.Use b)) := by
  refine ⟨trivial, fun _ => Prog.every_ite trivial ⟨trivial, fun _ => Prog.every_ite trivial
    ⟨trivial, fun _ => ⟨trivial, fun callback => ⟨trivial, fun _ => Prog.every_ite trivial ?_⟩⟩⟩⟩⟩
  cases callback with
  | none => trivial
  | some f => exact Prog.every_ite ⟨trivial, fun _ => trivial⟩ trivial

theorem uses_getLast : (ttErrorGetLast : Prog (errorSig F) TtError).Every
    (Levels.Uses (Lock.Use b)) :=
  ⟨trivial, fun _ => Prog.every_ite trivial ⟨trivial, fun _ => Prog.every_ite trivial
    ⟨trivial, fun _ => ⟨trivial, fun _ => Prog.every_ite trivial trivial⟩⟩⟩⟩

/-- Of the mutex every function comes to lock and unlock only. -/
theorem uses_body {c : ErrorCall F} (hc : Using c) :
    (errorBody c).Every (Levels.Uses (Lock.Use b)) := by
  cases c with
  | init => exact absurd rfl hc.1
  | deinit => exact absurd rfl hc.2
  | getLast => exact uses_getLast.map _
  | isSuccess => exact (uses_getLast.map _).map _
  | setLast e => exact (uses_setLast e).map _
  | clear => exact (uses_setLast .success).map _
  | registerCallback f =>
      refine Prog.Every.map (m := ttErrorRegisterCallback f) _ ?_
      exact ⟨trivial, fun _ => Prog.every_ite trivial ⟨trivial, fun _ => Prog.every_ite trivial
        ⟨trivial, fun _ => ⟨trivial, fun _ => Prog.every_ite trivial trivial⟩⟩⟩⟩

theorem short_setLast (e : TtError) : (ttErrorSetLast e : Prog (errorSig F) TtError).Short 6 := by
  refine fun _ => Prog.short_ite trivial fun _ => Prog.short_ite trivial fun _ callback _ =>
    Prog.short_ite trivial ?_
  cases callback with
  | none => trivial
  | some f => exact Prog.short_ite (fun _ => trivial) trivial

theorem short_getLast : (ttErrorGetLast : Prog (errorSig F) TtError).Short 6 :=
  fun _ => Prog.short_ite trivial fun _ => Prog.short_ite trivial fun _ _ =>
    Prog.short_ite trivial trivial

theorem short_body {c : ErrorCall F} (hc : Using c) : (errorBody c).Short 6 := by
  cases c with
  | init => exact absurd rfl hc.1
  | deinit => exact absurd rfl hc.2
  | getLast => exact short_getLast.map _
  | isSuccess => exact (short_getLast.map _).map _
  | setLast e => exact (short_setLast e).map _
  | clear => exact (short_setLast .success).map _
  | registerCallback f =>
      refine Prog.Short.map (m := ttErrorRegisterCallback f) _ ?_
      exact fun _ => Prog.short_ite trivial fun _ => Prog.short_ite trivial fun _ _ =>
        Prog.short_ite trivial trivial

/-- An initialised context that nobody is working on. -/
def Quiet (s : TtErrorContext F × Option τ) : Prop := s.1.initialized = true ∧ s.2 = none

section Steady

variable {t : τ} {s : TtErrorContext F × Option τ}

/-- From a ready context a set_last gets stuck nowhere and leaves a ready one. -/
theorem keeps_setLast (e : TtError) (h : Quiet s) :
    (errorSys F τ).Meets t (fun _ _ _ => True) (fun _ _ s' => Quiet s') []
      (ttErrorSetLast e >>= fun r => .ret (TtVal.err r)) s := by
  obtain ⟨⟨last, callback, _⟩, _⟩ := s
  obtain ⟨rfl, rfl⟩ := h
  iterate 5 refine (Machine.meets_step_det fun _ => rfl).mpr ⟨trivial, ?_⟩
  cases callback with
  | none => exact ⟨rfl, rfl⟩
  | some f =>
      by_cases he : e = .success
      · simp only [ne_eq, not_true, if_false, he]
        exact ⟨rfl, rfl⟩
      · simp only [ne_eq, not_true, if_false, he, not_false_eq_true, if_true]
        exact (Machine.meets_step_det fun _ => rfl).mpr ⟨trivial, rfl, rfl⟩

/-- Alone no function gets stuck. -/
theorem steady : Locking.Steady (errorSys F τ) Using Quiet := by
  intro t c s hc h
  cases c with
  | init => exact absurd rfl hc.1
  | deinit => exact absurd rfl hc.2
  | setLast e => exact keeps_setLast e h
  | clear => exact keeps_setLast .success h
  | getLast | isSuccess | registerCallback f =>
      obtain ⟨⟨last, callback, _⟩, _⟩ := s
      obtain ⟨rfl, rfl⟩ := h
      iterate 4 refine (Machine.meets_step_det fun _ => rfl).mpr ⟨trivial, ?_⟩
      exact ⟨rfl, rfl⟩

end Steady

/-- The mutex below the error context. -/
abbrev linkLevels (b : MutexBuild) (p : Addr) (F τ : Type) :=
  (Lock.levels b p τ).beside (errorMachine F τ Unit) (errorMachine F τ Unit)

/-- After a `tt_error_init` the context is what it is over a mutex that works. -/
theorem linked_rel {t : τ} {s s₀ : TtErrorContext F × b.State τ} (hs : s.1.initialized = false)
    (hinit : ((errorMachine F τ b.Choice).sum (b.machine τ)).Returns t (ttErrorInit.link b.mutex) s
      .success s₀) : ∃ p, (linkLevels b p F τ).rel (⟨.success, none, true⟩, none) s₀ := by
  obtain ⟨hx₀, hmutex⟩ := returns_linked_init hs hinit
  obtain ⟨p, hp⟩ := Lock.standsFor_init hmutex
  exact ⟨p, hx₀.symm, hp⟩

/-- On Linux `tt_error_init` initialises the context and its mutex. -/
theorem linked_init : ((errorMachine Nat Nat LinuxChoice).sum (linuxMutexMachine Unit Nat)).Returns 0
    (ttErrorInit.link linuxMutex) (.zero, .zero) .success (⟨.success, none, true⟩, Lock.fresh) :=
  ⟨_, Machine.run_of_eval [.ok, .addr 10, .ok, .ok, .ok, .ok, .ok, .ok] rfl⟩

end Error

open Error

/--
**The error context is linearizable in either build.** After a `tt_error_init` that
succeeded, let threads call the other functions, down to the steps of the mutex that the
build has, in any interleaving.  One order of the calls explains what is seen of them: it
respects real time, and each call that has completed returned and invoked what it should
after the calls before it.
-/
theorem ttError_linked_linearizable (b : MutexBuild) {F τ : Type} [DecidableEq τ] {t₀ : τ}
    {s s₀ : TtErrorContext F × b.State τ} (hs : s.1.initialized = false)
    (hinit : ((errorMachine F τ b.Choice).sum (b.machine τ)).Returns t₀ (ttErrorInit.link b.mutex) s
      .success s₀)
    {pl : Pool ((errorOpSig F).sum b.sig) τ (TtErrorContext F × b.State τ) (ErrorCall F) TtVal}
    (h : (b.linking (errorMachine F τ Unit) errorBody).Reach (fun _ _ c => Using c) s₀ pl) :
    ∃ L : List (LogEntry (errorSig F) τ (ErrorCall F) TtVal),
      Explains (seen own pl.view.trace) pl.view.calls L := by
  obtain ⟨p, hrel⟩ := linked_rel hs hinit
  have h : ((linkLevels b p F τ).below fun c => (errorBody c).link b.mutex).Reach
      (promise own fun _ _ c => Using c) s₀ pl := h
  obtain ⟨pa, hpa, hm⟩ := (Lock.implements b p (errorMachine F τ Unit)).refines
    (fun _ _ c _ => Prog.link_eq_handle b.mutex (errorBody c)) (fun _ _ _ => uses_body) hrel h
  obtain ⟨L, hL⟩ := explains hpa
  rw [show seen own pa.view.trace = seen own pl.view.trace from hm.seen, hm.calls] at hL
  exact ⟨L, hL⟩

/-- On Linux a callback is registered while another thread is about to set an error. -/
theorem ttError_linked_linearizable_overlap :
    ∃ pl, (MutexBuild.linux.linking (errorMachine Nat Nat Unit) errorBody).Reach (fun _ _ c => Using c)
        (⟨.success, none, true⟩, Lock.fresh) pl ∧
      callbacks (prims (seen own pl.view.trace) 0) = [(7, .busy)] ∧
      ∃ L : List (LogEntry (errorSig Nat) Nat (ErrorCall Nat) TtVal),
        Explains (seen own pl.view.trace) pl.view.calls L ∧
        ∃ e ∈ L, e.id = 0 ∧ invoked e.done = [(7, .busy)] := by
  have hrun : ((MutexBuild.linux.linking (errorMachine Nat Nat Unit) errorBody).run
      (fun _ _ c => Using c) [.call 0 (.setLast .busy), .prim 0 (), .prim 0 (), .call 1 (.registerCallback (some 7)),
        .prim 1 (), .prim 1 (), .prim 1 (), .prim 1 (), .prim 1 (), .prim 1 (), .prim 1 (),
        .prim 1 (), .ret 1, .prim 0 (), .prim 0 (), .prim 0 (), .prim 0 (), .prim 0 (), .prim 0 (),
        .prim 0 (), .prim 0 (), .ret 0]
      (Sys.start (⟨.success, none, true⟩, Lock.fresh))).isSome = true := rfl
  have hreach := Sys.Reach.run _ .start (Option.some_get hrun).symm
  obtain ⟨L, hL⟩ := ttError_linked_linearizable .linux rfl linked_init hreach
  obtain ⟨e, he, hid, -, -, -, hinv⟩ := hL.returned 0 0 (.setLast .busy) (.err .success)
    (List.mem_of_getLast? rfl)
  exact ⟨_, hreach, rfl, L, hL, e, he, hid, hinv⟩

/--
**The calls of the error context complete in either build.** After a `tt_error_init` that
succeeded, in whatever state the threads are that call the other functions: without further
calls they get on at most 19 times for each call in progress, and as long as one is in
progress one of them can.  So they can all return, and cannot go on for ever.
-/
theorem ttError_linked_completes (b : MutexBuild) {F τ : Type} [DecidableEq τ] {t₀ : τ}
    {s s₀ : TtErrorContext F × b.State τ} (hs : s.1.initialized = false)
    (hinit : ((errorMachine F τ b.Choice).sum (b.machine τ)).Returns t₀ (ttErrorInit.link b.mutex) s
      .success s₀)
    {pl : Pool ((errorOpSig F).sum b.sig) τ (TtErrorContext F × b.State τ) (ErrorCall F) TtVal}
    (h : (b.linking (errorMachine F τ Unit) errorBody).Reach (fun _ _ c => Using c) s₀ pl) :
    (b.linking (errorMachine F τ Unit) errorBody).Completes 19 pl ∧
      ∃ pl', (b.linking (errorMachine F τ Unit) errorBody).Calm pl pl' ∧
        ∀ t, pl'.view.calls t = none := by
  obtain ⟨p, hrel⟩ := linked_rel hs hinit
  have hshort : ∀ c : ErrorCall F, Using c → ((errorBody c).link b.mutex).Short 18 := fun c hc =>
    Prog.Short.link (n := 2) (fun _ hp => Lock.short_mutex hp) (uses_body hc) (short_body hc)
  have hstable : (locking F τ).stable (⟨.success, none, true⟩, none) := rfl
  have h : ((linkLevels b p F τ).below fun c => (errorBody c).link b.mutex).Reach
      (promise own fun _ _ c => Using c) s₀ pl := h
  have hcompletes := (Lock.implements b p (errorMachine F τ Unit)).completes Lock.implements_live
    (fun _ _ c _ => Prog.link_eq_handle b.mutex (errorBody c)) (fun _ _ _ => uses_body)
    (fun _ _ c hc => hshort c hc) hrel
    (fun pa t hpa => Locking.moves (K := locking F τ) steady errorSys_again (fun _ _ _ hc => hc)
      ⟨rfl, rfl⟩ hstable rfl (fun _ _ _ hc => shape_body hc) hpa) h
  exact ⟨hcompletes, hcompletes.ends⟩

/-- One thread is in its section and another one waits for it. -/
theorem ttError_linked_completes_waiting :
    ∃ pl, (MutexBuild.linux.linking (errorMachine Nat Nat Unit) errorBody).Reach (fun _ _ c => Using c)
        (⟨.success, none, true⟩, Lock.fresh) pl ∧
      pl.view.calls 0 = some (0, .clear) ∧ pl.view.calls 1 = some (1, .getLast) ∧
      (MutexBuild.linux.linking (errorMachine Nat Nat Unit) errorBody).step (.prim 1 ()) pl = none ∧
      ∃ pl', (MutexBuild.linux.linking (errorMachine Nat Nat Unit) errorBody).Calm pl pl' ∧
        ∀ t, pl'.view.calls t = none := by
  have hrun : ((MutexBuild.linux.linking (errorMachine Nat Nat Unit) errorBody).run
      (fun _ _ c => Using c) [.call 0 .clear, .prim 0 (), .prim 0 (), .prim 0 (), .prim 0 (), .call 1 .getLast, .prim 1 (),
        .prim 1 (), .prim 1 ()] (Sys.start (⟨.success, none, true⟩, Lock.fresh))).isSome = true :=
    rfl
  have hreach := Sys.Reach.run _ .start (Option.some_get hrun).symm
  exact ⟨_, hreach, rfl, rfl, rfl, (ttError_linked_completes .linux rfl linked_init hreach).2⟩

end TinyTools
