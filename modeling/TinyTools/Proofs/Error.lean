/-
The initialised error context is linearizable.

Between init and deinit every function reads `initialized`, which nobody changes, has
one critical section on the mutex, and after it at most calls the callback it found
there.  That is the shape of `Lib/Locked.lean`, so any interleaving is a sequential
execution of the same functions, and what is left is to run each function alone.

The specification speaks of the calls that come before: the last error is the one of
the latest set, the callback the latest one registered.
-/
import TinyTools.Lib.Linearize
import TinyTools.Error

namespace TinyTools

open Interleave

namespace Error

variable {F τ : Type}

/-! ### What the calls answer -/

/-- The argument of the latest `tt_error_set_last` or `tt_error_clear`. -/
def lastSet (calls : List (ErrorCall F)) : TtError :=
  calls.foldl (fun last c =>
    match c with
    | .setLast e => e
    | .clear => .success
    | _ => last) .success

/-- The argument of the latest `tt_error_register_callback`. -/
def lastRegistered (calls : List (ErrorCall F)) : Option F :=
  calls.foldl (fun last c =>
    match c with
    | .registerCallback callback => callback
    | _ => last) none

/-- What a call returns, and the callbacks it invokes, after the calls `before`. -/
inductive Answers (before : List (ErrorCall F)) :
    ErrorCall F → TtVal → List (F × TtError) → Prop
  | getLast : Answers before .getLast (.err (lastSet before)) []
  | isSuccess : Answers before .isSuccess (.bool (decide (lastSet before = .success))) []
  | setLast (e : TtError) (h : e ≠ .success) :
      Answers before (.setLast e) (.err .success) ((lastRegistered before).toList.map (·, e))
  | setSuccess : Answers before (.setLast .success) (.err .success) []
  | clear : Answers before .clear (.err .success) []
  | registerCallback (callback : Option F) :
      Answers before (.registerCallback callback) (.err .success) []

/-- The callbacks invoked among some primitives, with their arguments. -/
def invoked (done : List (errorSig F).Done) : List (F × TtError) :=
  done.filterMap fun
    | ⟨.inl (.invoke f e), _⟩ => some (f, e)
    | _ => none

/-- Clients that neither initialise nor deinitialise. -/
def Using (c : ErrorCall F) : Prop := c ≠ .init ∧ c ≠ .deinit

instance [DecidableEq F] (c : ErrorCall F) : Decidable (Using c) :=
  inferInstanceAs (Decidable (_ ∧ _))

/-! ### The locking discipline -/

/-- How the primitives of the functions in `Using` stand to `error_ctx.mutex`. -/
def kind : (errorSig F).Op → LockKind
  | .inl .readInitialized | .inl (.invoke _ _) => .free
  | .inl (.writeInitialized _) => .never
  | .inl .readLastError | .inl (.writeLastError _) | .inl .readCallback | .inl (.writeCallback _) =>
      .inside
  | .inr (.lock (some _)) => .acquire
  | .inr (.unlock (some _)) => .release
  | .inr _ => .never

/-- The answers while `initialized` is true. -/
def ans : (p : (errorSig F).Op) → (errorSig F).Res p → Prop
  | .inl .readInitialized, r => r = true
  | .inr (.lock _), r | .inr (.unlock _), r => r = .success
  | _, _ => True

def locking (F τ : Type) : Locking (errorSys F τ).toMachine where
  kind := kind
  holder s := s.2
  stable s := s.1.initialized = true
  ans := ans
  sound := by
    intro x t p s r s' hp hs hexec
    rcases p with p | p
    · cases p with
      | readInitialized =>
          cases hexec
          exact ⟨hs, hs, rfl⟩
      | writeInitialized b => exact absurd rfl hp
      | readLastError | writeLastError e | readCallback | writeCallback f | invoke f e =>
          cases hexec
          exact ⟨trivial, hs, rfl⟩
    · rcases p with _ | _ | (_ | m) | (_ | m) | _ | _
      · exact absurd rfl hp
      · exact absurd rfl hp
      · exact absurd rfl hp
      · rcases s with ⟨s, _ | u⟩
        · cases hexec
          exact ⟨rfl, hs, rfl⟩
        · cases hexec
      · exact absurd rfl hp
      · cases hexec
        exact ⟨rfl, hs, rfl⟩
      · exact absurd rfl hp
      · exact absurd rfl hp
  free := by
    intro p t hp
    rcases p with p | p
    · cases p with
      | readInitialized =>
          refine ⟨true, rfl, fun r' hr' => hr', ?_⟩
          intro s hs
          refine ⟨⟨(), ?_⟩, ?_⟩
          · show some (s.1.initialized, s) = some (true, s)
            rw [hs]
          · intro x r' s' hexec
            cases hexec
            rfl
      | invoke f e =>
          refine ⟨(), trivial, fun _ _ => rfl, ?_⟩
          intro s hs
          refine ⟨⟨(), rfl⟩, ?_⟩
          intro x r' s' hexec
          cases hexec
          rfl
      | writeInitialized b | readLastError | writeLastError e | readCallback | writeCallback f =>
          cases hp
    · rcases p with _ | _ | (_ | m) | (_ | m) | _ | _ <;> cases hp
  acquire := by
    intro x t p s r s' hp hexec
    rcases p with p | p
    · cases p <;> cases hp
    · rcases p with _ | _ | (_ | m) | (_ | m) | _ | _
      all_goals try cases hp
      rcases s with ⟨s, _ | u⟩
      · cases hexec
        exact ⟨rfl, rfl⟩
      · cases hexec
  inside := by
    intro x t p s r s' hp hexec
    rcases p with p | p
    · cases p with
      | readInitialized | writeInitialized b | invoke f e => cases hp
      | readLastError | writeLastError e | readCallback | writeCallback f =>
          cases hexec
          rfl
    · rcases p with _ | _ | (_ | m) | (_ | m) | _ | _ <;> cases hp
  release := by
    intro x t p s r s' hp hexec _
    rcases p with p | p
    · cases p <;> cases hp
    · rcases p with _ | _ | (_ | m) | (_ | m) | _ | _
      all_goals try cases hp
      cases hexec
      rfl

theorem errorSys_again (p : (errorSig F).Op) (r : (errorSig F).Res p) :
    (errorSys F τ).again p r = false := by
  rcases p with p | p
  · rfl
  · rfl

@[simp] theorem locking_kind (p : (errorSig F).Op) : (locking F τ).kind p = kind p := rfl

@[simp] theorem locking_ans (p : (errorSig F).Op) (r : (errorSig F).Res p) :
    (locking F τ).ans p r = ans p r := rfl

theorem shape_setLast (e : TtError) :
    (locking F τ).Shape .before (errorBody (.setLast e)) := by
  simp only [errorBody, ttErrorSetLast, Bool.not_eq_eq_eq_not, Bool.not_true, ne_eq, ite_not,
    Prog.pure_eq, Prog.step_bind, Locking.Shape, Phase.next, locking_kind, kind, Option.some.injEq,
    locking_ans, ans, forall_eq, Bool.true_eq_false, ↓reduceIte, forall_const, exists_eq_left']
  -- what is left comes after the section
  intro callback
  rcases callback with _ | f
  · simp [Locking.Shape]
  · by_cases he : e = .success
    · simp [Locking.Shape, he]
    · simp [Locking.Shape, he, kind, Phase.next]

/-- Every function in `Using` has one critical section. -/
theorem shape_body {c : ErrorCall F} (hc : Using c) : (locking F τ).Shape .before (errorBody c) := by
  cases c with
  | init => exact absurd rfl hc.1
  | deinit => exact absurd rfl hc.2
  | getLast => simp [errorBody, ttErrorGetLast, Locking.Shape, kind, Phase.next, ans]
  | isSuccess =>
      simp [errorBody, ttErrorIsSuccess, ttErrorGetLast, Locking.Shape, kind, Phase.next, ans]
  | setLast e => exact shape_setLast e
  | clear => exact shape_setLast .success
  | registerCallback f =>
      simp [errorBody, ttErrorRegisterCallback, Locking.Shape, kind, Phase.next, ans]

/-! ### Running alone -/

section Runs

variable {α : Type} {t : τ} {s s' : TtErrorContext F × Option τ} {es : List (errorSig F).Done} {a : α}

@[simp] theorem run_readInitialized {k : Bool → Prog (errorSig F) α} :
    (errorSys F τ).Run t (.step (.inl .readInitialized : ErrorOp F ⊕ MutexCall Unit) k) s es a s' ↔
      ∃ es₁, es = ⟨.inl .readInitialized, s.1.initialized⟩ :: es₁ ∧
        (errorSys F τ).Run t (k s.1.initialized) s es₁ a s' :=
  Machine.run_sum_inl (fun _ => rfl) fun _ => rfl

@[simp] theorem run_writeInitialized {b : Bool} {k : Unit → Prog (errorSig F) α} :
    (errorSys F τ).Run t (.step (.inl (.writeInitialized b) : ErrorOp F ⊕ MutexCall Unit) k) s es
      a s' ↔
      ∃ es₁, es = ⟨.inl (.writeInitialized b), ()⟩ :: es₁ ∧
        (errorSys F τ).Run t (k ()) ({ s.1 with initialized := b }, s.2) es₁ a s' :=
  Machine.run_sum_inl (fun _ => rfl) fun _ => rfl

@[simp] theorem run_readLastError {k : TtError → Prog (errorSig F) α} :
    (errorSys F τ).Run t (.step (.inl .readLastError : ErrorOp F ⊕ MutexCall Unit) k) s es a s' ↔
      ∃ es₁, es = ⟨.inl .readLastError, s.1.lastError⟩ :: es₁ ∧
        (errorSys F τ).Run t (k s.1.lastError) s es₁ a s' :=
  Machine.run_sum_inl (fun _ => rfl) fun _ => rfl

@[simp] theorem run_writeLastError {e : TtError} {k : Unit → Prog (errorSig F) α} :
    (errorSys F τ).Run t (.step (.inl (.writeLastError e) : ErrorOp F ⊕ MutexCall Unit) k) s es a s' ↔
      ∃ es₁, es = ⟨.inl (.writeLastError e), ()⟩ :: es₁ ∧
        (errorSys F τ).Run t (k ()) ({ s.1 with lastError := e }, s.2) es₁ a s' :=
  Machine.run_sum_inl (fun _ => rfl) fun _ => rfl

@[simp] theorem run_readCallback {k : Option F → Prog (errorSig F) α} :
    (errorSys F τ).Run t (.step (.inl .readCallback : ErrorOp F ⊕ MutexCall Unit) k) s es a s' ↔
      ∃ es₁, es = ⟨.inl .readCallback, s.1.callback⟩ :: es₁ ∧
        (errorSys F τ).Run t (k s.1.callback) s es₁ a s' :=
  Machine.run_sum_inl (fun _ => rfl) fun _ => rfl

@[simp] theorem run_writeCallback {f : Option F} {k : Unit → Prog (errorSig F) α} :
    (errorSys F τ).Run t (.step (.inl (.writeCallback f) : ErrorOp F ⊕ MutexCall Unit) k) s es a s' ↔
      ∃ es₁, es = ⟨.inl (.writeCallback f), ()⟩ :: es₁ ∧
        (errorSys F τ).Run t (k ()) ({ s.1 with callback := f }, s.2) es₁ a s' :=
  Machine.run_sum_inl (fun _ => rfl) fun _ => rfl

@[simp] theorem run_invoke {f : F} {e : TtError} {k : Unit → Prog (errorSig F) α} :
    (errorSys F τ).Run t (.step (.inl (.invoke f e) : ErrorOp F ⊕ MutexCall Unit) k) s es a s' ↔
      ∃ es₁, es = ⟨.inl (.invoke f e), ()⟩ :: es₁ ∧ (errorSys F τ).Run t (k ()) s es₁ a s' :=
  Machine.run_sum_inl (fun _ => rfl) fun _ => rfl

@[simp] theorem run_init {k : TtError → Prog (errorSig F) α} :
    (errorSys F τ).Run t (.step (.inr (.init (some ())) : ErrorOp F ⊕ MutexCall Unit) k) s es a s' ↔
      ∃ es₁, es = ⟨.inr (.init (some ())), .success⟩ :: es₁ ∧
        (errorSys F τ).Run t (k .success) (s.1, none) es₁ a s' :=
  Machine.run_sum_inr (fun _ => rfl) fun _ => rfl

@[simp] theorem run_lock {x : TtErrorContext F} {k : TtError → Prog (errorSig F) α} :
    (errorSys F τ).Run t (.step (.inr (.lock (some ())) : ErrorOp F ⊕ MutexCall Unit) k)
      (x, none) es a s' ↔
      ∃ es₁, es = ⟨.inr (.lock (some ())), .success⟩ :: es₁ ∧
        (errorSys F τ).Run t (k .success) (x, some t) es₁ a s' :=
  Machine.run_sum_inr (fun _ => rfl) fun _ => rfl

@[simp] theorem run_unlock {k : TtError → Prog (errorSig F) α} :
    (errorSys F τ).Run t (.step (.inr (.unlock (some ())) : ErrorOp F ⊕ MutexCall Unit) k) s es a s' ↔
      ∃ es₁, es = ⟨.inr (.unlock (some ())), .success⟩ :: es₁ ∧
        (errorSys F τ).Run t (k .success) (s.1, none) es₁ a s' :=
  Machine.run_sum_inr (fun _ => rfl) fun _ => rfl

/-- A `tt_error_init` that completes leaves one state. -/
theorem run_ttErrorInit {s₀ : TtErrorContext F × Option τ} (hs : s.1.initialized = false)
    (h : (errorSys F τ).Run t ttErrorInit s es .success s₀) :
    s₀ = (⟨.success, none, true⟩, none) := by
  simp only [ttErrorInit, run_readInitialized, hs, Bool.false_eq_true, if_false, run_init, ne_eq,
    not_true, run_writeLastError, run_writeCallback, run_writeInitialized] at h
  obtain ⟨_, rfl, _, rfl, _, rfl, _, rfl, _, rfl, h⟩ := h
  exact (Machine.run_ret_iff.mp h).2.2.symm

/-- The context after a call. -/
def next : ErrorCall F → TtErrorContext F → TtErrorContext F
  | .setLast e, x => { x with lastError := e }
  | .clear, x => { x with lastError := .success }
  | .registerCallback f, x => { x with callback := f }
  | _, x => x

theorem run_setLast {e : TtError} {x : TtErrorContext F} (hx : x.initialized = true) {a : TtVal}
    (h : (errorSys F τ).Run t (errorBody (.setLast e)) (x, none) es a s') :
    s' = ({ x with lastError := e }, none) ∧ ⟨.inr (.lock (some ())), .success⟩ ∈ es ∧
      a = .err .success ∧
      invoked es = if e = .success then [] else x.callback.toList.map (·, e) := by
  obtain ⟨last, callback, initialized⟩ := x
  cases hx
  simp only [errorBody, ttErrorSetLast, Prog.step_bind, run_readInitialized, Bool.not_true,
    Bool.false_eq_true, if_false, run_lock, ne_eq, not_true, run_writeLastError, run_readCallback,
    run_unlock] at h
  obtain ⟨_, rfl, _, rfl, _, rfl, _, rfl, es₁, rfl, h⟩ := h
  rcases callback with _ | f
  · obtain ⟨rfl, rfl, rfl⟩ := Machine.run_ret_iff.mp h
    refine ⟨rfl, by simp, rfl, ?_⟩
    simp [invoked]
  · by_cases he : e = .success
    · simp only [he, not_true, if_false] at h
      obtain ⟨rfl, rfl, rfl⟩ := Machine.run_ret_iff.mp h
      refine ⟨by rw [he], by simp, rfl, ?_⟩
      simp [invoked, he]
    · simp only [he, not_false_eq_true, if_true, Prog.step_bind, run_invoke] at h
      obtain ⟨_, rfl, h⟩ := h
      obtain ⟨rfl, rfl, rfl⟩ := Machine.run_ret_iff.mp h
      refine ⟨rfl, by simp, rfl, ?_⟩
      simp [invoked, he]

/-- `tt_error_get_last` alone, and what follows it. -/
theorem run_getLast {f : TtError → Prog (errorSig F) α} {x : TtErrorContext F}
    (hx : x.initialized = true) :
    (errorSys F τ).Run t (ttErrorGetLast >>= f) (x, none) es a s' ↔
      ∃ es₁, es = ⟨.inl .readInitialized, true⟩ :: ⟨.inr (.lock (some ())), .success⟩ ::
          ⟨.inl .readLastError, x.lastError⟩ :: ⟨.inr (.unlock (some ())), .success⟩ :: es₁ ∧
        (errorSys F τ).Run t (f x.lastError) (x, none) es₁ a s' := by
  simp [ttErrorGetLast, hx]

/-- A call alone: the context after it, its section, and what it answers. -/
theorem run_body {c : ErrorCall F} (hc : Using c) {x : TtErrorContext F} (hx : x.initialized = true)
    {a : TtVal} (h : (errorSys F τ).Run t (errorBody c) (x, none) es a s') :
    s' = (next c x, none) ∧ ⟨.inr (.lock (some ())), .success⟩ ∈ es ∧
      ∀ before, lastSet before = x.lastError → lastRegistered before = x.callback →
        Answers before c a (invoked es) := by
  cases c with
  | init => exact absurd rfl hc.1
  | deinit => exact absurd rfl hc.2
  | getLast =>
      rw [errorBody, run_getLast hx] at h
      obtain ⟨_, rfl, h⟩ := h
      obtain ⟨rfl, rfl, rfl⟩ := Machine.run_ret_iff.mp h
      refine ⟨rfl, by simp, ?_⟩
      intro before hlast _
      rw [← hlast]
      exact .getLast
  | isSuccess =>
      rw [errorBody, ttErrorIsSuccess, Prog.bind_assoc, run_getLast hx] at h
      obtain ⟨_, rfl, h⟩ := h
      obtain ⟨rfl, rfl, rfl⟩ := Machine.run_ret_iff.mp h
      refine ⟨rfl, by simp, ?_⟩
      intro before hlast _
      rw [← hlast]
      exact .isSuccess
  | setLast e =>
      obtain ⟨rfl, hlock, rfl, hinv⟩ := run_setLast hx h
      refine ⟨rfl, hlock, ?_⟩
      intro before _ hcb
      rw [hinv]
      split
      · rename_i he
        rw [he]
        exact .setSuccess
      · rename_i he
        rw [← hcb]
        exact .setLast e he
  | clear =>
      obtain ⟨rfl, hlock, rfl, hinv⟩ := run_setLast hx h
      refine ⟨rfl, hlock, ?_⟩
      intro before _ _
      rw [hinv, if_pos rfl]
      exact .clear
  | registerCallback f =>
      simp only [errorBody, ttErrorRegisterCallback, Prog.step_bind, run_readInitialized, hx,
        Bool.not_true, Bool.false_eq_true, if_false, run_lock, ne_eq, not_true, run_writeCallback,
        run_unlock] at h
      obtain ⟨_, rfl, _, rfl, _, rfl, es₁, rfl, h⟩ := h
      obtain ⟨rfl, rfl, rfl⟩ := Machine.run_ret_iff.mp h
      refine ⟨?_, by simp, ?_⟩
      · simp [next, hx]
      · intro before _ _
        exact .registerCallback f

/-- The context a call leaves is the one the specification remembers. -/
theorem next_answers (calls : List (ErrorCall F)) (c : ErrorCall F) :
    next c ⟨lastSet calls, lastRegistered calls, true⟩
      = ⟨lastSet (calls ++ [c]), lastRegistered (calls ++ [c]), true⟩ := by
  simp only [lastSet, lastRegistered, List.foldl_append, List.foldl_cons, List.foldl_nil]
  cases c with
  | _ => rfl

end Runs

/-! ### The log -/

/-- What a sequential execution from an initialised context has done. -/
theorem of_sequential {x₀ : TtErrorContext F} (hx₀ : x₀ = ⟨.success, none, true⟩)
    {L : List (LogEntry (errorSig F) τ (ErrorCall F) TtVal)} {s : TtErrorContext F × Option τ}
    (h : Sequential (errorSys F τ) (x₀, none) L s) (hL : ∀ e ∈ L, Using e.call) :
    s = (⟨lastSet (L.map LogEntry.call), lastRegistered (L.map LogEntry.call), true⟩, none) ∧
      (∀ e ∈ L, ⟨.inr (.lock (some ())), .success⟩ ∈ e.done) ∧
      ∀ L₁ e L₂, L = L₁ ++ e :: L₂ →
        Answers (L₁.map LogEntry.call) e.call e.val (invoked e.done) := by
  induction h with
  | nil =>
      refine ⟨by rw [hx₀]; rfl, ?_, ?_⟩
      · intro e he
        exact absurd he List.not_mem_nil
      · intro L₁ e L₂ hL
        exact absurd hL (by simp)
  | @snoc L s s' e _ hrun ih =>
      obtain ⟨rfl, hlock, hans⟩ := ih fun e' he' => hL e' (List.mem_append_left _ he')
      have hcall : Using e.call := hL e (by simp)
      obtain ⟨rfl, hlock', hans'⟩ := run_body hcall rfl hrun
      refine ⟨?_, ?_, ?_⟩
      · rw [next_answers, List.map_append, List.map_singleton]
      · intro e' he'
        rcases List.mem_append.mp he' with he' | he'
        · exact hlock e' he'
        · rw [List.mem_singleton.mp he']
          exact hlock'
      · intro L₁ e₁ L₂ hsplit
        rcases split_snoc hsplit with ⟨rfl, rfl, -⟩ | ⟨L₃, -, rfl⟩
        · exact hans' _ rfl rfl
        · exact hans L₁ e₁ L₃ rfl

end Error

open Error

/--
**The initialised error context is linearizable.** After one `tt_error_init`, in every
interleaving of calls that neither initialise nor deinitialise, the calls that have
left their critical section can be put in one order that respects real time, such
that each of them returns and invokes what it should after the calls before it.
Every completed call is in the order, with the value it returned and the callbacks
it invoked, and a call in the order whose thread has no call in progress is
completed.
-/
theorem ttError_linearizable {F τ : Type} [DecidableEq τ] {t₀ : τ}
    {s s₀ : TtErrorContext F × Option τ} {es : List (errorSig F).Done}
    (hs : s.1.initialized = false) (hinit : (errorSys F τ).Run t₀ ttErrorInit s es .success s₀)
    {pl : Pool (errorSig F) τ (TtErrorContext F × Option τ) (ErrorCall F) TtVal}
    (h : (errorSys F τ).Reach (fun _ _ c => Using c) s₀ pl) :
    ∃ L : List (LogEntry (errorSig F) τ (ErrorCall F) TtVal),
      (L.map LogEntry.id).Nodup ∧
      (∀ e ∈ L, .call e.id e.thread e.call ∈ pl.view.trace) ∧
      (∀ e₁ ∈ L, ∀ e₂ ∈ L, Precedes pl.view.trace e₁.id e₂.id → [e₁, e₂].Sublist L) ∧
      (∀ id t c a, .ret id t c a ∈ pl.view.trace → ∃ e ∈ L, e.id = id ∧ e.thread = t ∧
        e.call = c ∧ e.val = a ∧ invoked e.done = invoked (prims pl.view.trace id)) ∧
      (∀ e ∈ L, pl.view.calls e.thread = none →
        .ret e.id e.thread e.call e.val ∈ pl.view.trace) ∧
      ∀ L₁ e L₂, L = L₁ ++ e :: L₂ →
        Answers (L₁.map LogEntry.call) e.call e.val (invoked e.done) := by
  have hs₀ := run_ttErrorInit hs hinit
  subst hs₀
  have hstable : (locking F τ).stable (⟨.success, none, true⟩, none) := rfl
  obtain ⟨L, s', hlin, -, -, hdone⟩ :=
    Locking.linearizable hstable rfl (fun _ _ _ hc => shape_body hc) h
  have husing : ∀ id t c, .call id t c ∈ pl.view.trace → Using c :=
    h.call_mem (P := Using) fun _ _ _ hc => hc
  obtain ⟨-, hlock, hans⟩ :=
    of_sequential rfl hlin.legal fun e he => husing _ _ _ (hlin.called e he)
  refine ⟨L, hlin.nodup, hlin.called, hlin.realTime, ?_, hdone, hans⟩
  intro id t c a hret
  rcases hlin.returned id t c a hret with hmem | ⟨hfree, hrun⟩
  · exact ⟨_, hmem, rfl, rfl, rfl, rfl, rfl⟩
  · -- no call returns without having locked
    have hcall : Using c := husing _ _ _ (h.books.ret_called id t c a hret)
    obtain ⟨-, hmem, -⟩ := run_body hcall rfl (hrun _ hstable)
    have hkind : LockKind.acquire = .free := hfree _ hmem
    cases hkind

/-- A callback is registered while another thread is about to set an error, and is invoked. -/
theorem ttError_linearizable_overlap :
    ∃ pl : Pool (errorSig Nat) Nat (TtErrorContext Nat × Option Nat) (ErrorCall Nat) TtVal,
      (errorSys Nat Nat).Reach (fun _ _ c => Using c) (⟨.success, none, true⟩, none) pl ∧
      invoked (prims pl.view.trace 0) = [(7, .busy)] ∧
      ∃ L : List (LogEntry (errorSig Nat) Nat (ErrorCall Nat) TtVal),
        (∃ e ∈ L, e.id = 0 ∧ invoked e.done = [(7, .busy)]) ∧
        ∀ L₁ e L₂, L = L₁ ++ e :: L₂ →
          Answers (L₁.map LogEntry.call) e.call e.val (invoked e.done) := by
  have hinit : (errorSys Nat Nat).Run 0 ttErrorInit (.zero, none)
      [⟨.inl .readInitialized, false⟩, ⟨.inr (.init (some ())), .success⟩,
        ⟨.inl (.writeLastError .success), ()⟩, ⟨.inl (.writeCallback none), ()⟩,
        ⟨.inl (.writeInitialized true), ()⟩] .success (⟨.success, none, true⟩, none) :=
    .step () rfl rfl (.step () rfl rfl (.step () rfl rfl (.step () rfl rfl (.step () rfl rfl
      (.ret _ _)))))
  have hrun : ((errorSys Nat Nat).run (fun _ _ c => Using c)
      [.call 0 (.setLast .busy), .prim 0 (), .call 1 (.registerCallback (some 7)), .prim 1 (),
        .prim 1 (), .prim 1 (), .prim 1 (), .ret 1, .prim 0 (), .prim 0 (), .prim 0 (),
        .prim 0 (), .prim 0 (), .ret 0] (Sys.start (⟨.success, none, true⟩, none))).isSome = true :=
    rfl
  have hreach := Sys.Reach.run _ .start (Option.some_get hrun).symm
  obtain ⟨L, -, -, -, hret, -, hans⟩ := ttError_linearizable rfl hinit hreach
  obtain ⟨e, he, hid, -, -, -, hinv⟩ := hret 0 0 (.setLast .busy) (.err .success) (by
    exact List.mem_of_getLast? rfl)
  refine ⟨_, hreach, rfl, L, ⟨e, he, hid, ?_⟩, hans⟩
  rw [hinv]
  rfl

end TinyTools
