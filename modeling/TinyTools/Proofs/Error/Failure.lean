/-
What a failing mutex call leaves of the error context.

Every function checks the result of `tt_mutex_lock` before it touches the context, and of
`tt_mutex_unlock` after it has written.  So a call goes one of four ways: it is turned
down before it needs the mutex, it does not get the mutex, it writes and cannot give the
mutex back, or all goes well.  Only the third can break the rule that a call which
fails changes nothing, and it does so whenever there was something to change.
-/
import TinyTools.Proofs.Error

namespace TinyTools

open Interleave

namespace Error

variable {F τ : Type}

/-- What a call does to the context where no mutex call fails. -/
def effect : ErrorCall F → TtErrorContext F → TtErrorContext F
  | .init, ⟨_, _, false⟩ => ⟨.success, none, true⟩
  | .deinit, ⟨last, _, true⟩ => ⟨last, none, false⟩
  | .setLast e, ⟨_, callback, true⟩ => ⟨e, callback, true⟩
  | .clear, ⟨_, callback, true⟩ => ⟨.success, callback, true⟩
  | .registerCallback callback, ⟨last, _, true⟩ => ⟨last, callback, true⟩
  | _, x => x

section Effect

variable {x : TtErrorContext F} {c : ErrorCall F}

theorem effect_init (hx : x.initialized = false) :
    effect .init x = { x with lastError := .success, callback := none, initialized := true } := by
  obtain ⟨last, callback, initialized⟩ := x
  cases hx
  rfl

theorem effect_deinit (hx : x.initialized = true) :
    effect .deinit x = { x with callback := none, initialized := false } := by
  obtain ⟨last, callback, initialized⟩ := x
  cases hx
  rfl

theorem effect_setLast (hx : x.initialized = true) (e : TtError) :
    effect (.setLast e) x = { x with lastError := e } := by
  obtain ⟨last, callback, initialized⟩ := x
  cases hx
  rfl

theorem effect_registerCallback (hx : x.initialized = true) (callback : Option F) :
    effect (.registerCallback callback) x = { x with callback := callback } := by
  obtain ⟨last, callback', initialized⟩ := x
  cases hx
  rfl

theorem effect_clear (x : TtErrorContext F) : effect .clear x = effect (.setLast .success) x := by
  obtain ⟨last, callback, _ | _⟩ := x
  · rfl
  · rfl

/-- A call that finds the context uninitialised has no effect. -/
theorem effect_refused (hc : c ≠ .init) (hx : x.initialized = false) : effect c x = x := by
  obtain ⟨last, callback, initialized⟩ := x
  cases hx
  cases c with
  | init => exact absurd rfl hc
  | _ => rfl

/-- Only `tt_error_deinit` makes the context uninitialised. -/
theorem effect_initialized (hc : c ≠ .deinit) (hx : x.initialized = true) :
    (effect c x).initialized = true := by
  obtain ⟨last, callback, initialized⟩ := x
  cases hx
  cases c with
  | deinit => exact absurd rfl hc
  | _ => rfl

end Effect

/-- What `tt_error_set_last` or `tt_error_clear` sets the last error to. -/
def ErrorCall.sets : ErrorCall F → Option TtError
  | .setLast e => some e
  | .clear => some .success
  | _ => none

/-- The callbacks due when `e` is set. -/
def due (callback : Option F) (e : TtError) : List (F × TtError) :=
  if e = .success then [] else callback.toList.map (·, e)

/-- The mutex calls among some primitives, with what they returned. -/
def mutexCalls (done : List (errorSig F).Done) : List (MutexCall Unit × TtVal) :=
  (Machine.seconds done).map fun d => (d.1, d.1.val d.2)

/-- A mutex call failed, or the context is not initialised and the call does not initialise it. -/
def Failed (c : ErrorCall F) (x : TtErrorContext F) (done : List (errorSig F).Done) : Prop :=
  (∃ m e, (m, .err e) ∈ mutexCalls done ∧ e ≠ .success) ∨ x.initialized = false ∧ c ≠ .init

/-- A call that fails changes nothing and invokes no callback, and one that has changed the last
error returns `TT_SUCCESS` after it has invoked the callback due. -/
def AtomicOnFailure (c : ErrorCall F) (x : TtErrorContext F) (done : List (errorSig F).Done)
    (v : TtVal) (x' : TtErrorContext F) : Prop :=
  (Failed c x done → x' = x ∧ invoked done = []) ∧
    ∀ e, ErrorCall.sets c = some e → x'.lastError ≠ x.lastError →
      v = .err .success ∧ invoked done = due x.callback e

/-- The mutex call that a call makes first. -/
def entry : ErrorCall F → MutexCall Unit
  | .init => .init (some ())
  | _ => .lock (some ())

/-- The one it makes when it has written. -/
def leave : ErrorCall F → List (MutexCall Unit)
  | .init => []
  | _ => [.unlock (some ())]

/-- A call that comes to use the mutex. -/
def Proceeds : ErrorCall F → TtErrorContext F → Prop
  | .init, x => x.initialized = false
  | _, x => x.initialized = true

theorem entry_ne_unlock (c : ErrorCall F) : entry c ≠ .unlock (some ()) := by
  cases c <;> rintro ⟨⟩

section Using

variable {c : ErrorCall F}

theorem entry_eq (hc : c ≠ .init) : entry c = .lock (some ()) := by
  cases c with
  | init => exact absurd rfl hc
  | _ => rfl

theorem leave_eq (hc : c ≠ .init) : leave c = [.unlock (some ())] := by
  cases c with
  | init => exact absurd rfl hc
  | _ => rfl

theorem proceeds_iff (hc : c ≠ .init) {x : TtErrorContext F} :
    Proceeds c x ↔ x.initialized = true := by
  cases c with
  | init => exact absurd rfl hc
  | _ => exact Iff.rfl

end Using

/-- The ways a call can go. -/
inductive Course (c : ErrorCall F) (x : TtErrorContext F) (done : List (errorSig F).Done)
    (v : TtVal) (x' : TtErrorContext F) : Prop
  | refused (hno : ¬ Proceeds c x) (hcalls : mutexCalls done = []) (hinv : invoked done = [])
      (hx : x' = x)
  | shut (e : TtError) (he : e ≠ .success) (hgo : Proceeds c x)
      (hcalls : mutexCalls done = [(entry c, .err e)]) (hinv : invoked done = []) (hx : x' = x)
  | stuck (e : TtError) (he : e ≠ .success) (hgo : x.initialized = true) (hc : c ≠ .init)
      (hcalls : mutexCalls done = [(.lock (some ()), .err .success), (.unlock (some ()), .err e)])
      (hinv : invoked done = []) (hx : x' = effect c x)
  | completed (hgo : Proceeds c x)
      (hcalls : mutexCalls done = (entry c :: leave c).map (·, .err .success))
      (hx : x' = effect c x)
      (hsets : ∀ e, ErrorCall.sets c = some e → v = .err .success ∧ invoked done = due x.callback e)

theorem Course.atomic_iff {c : ErrorCall F} {x x' : TtErrorContext F}
    {done : List (errorSig F).Done} {v : TtVal} (h : Course c x done v x') :
    AtomicOnFailure c x done v x' ↔
      (∀ e, (.unlock (some ()), .err e) ∈ mutexCalls done → e = .success) ∨ effect c x = x := by
  cases h with
  | refused _ hcalls hinv hx =>
      refine iff_of_true ⟨fun _ => ⟨hx, hinv⟩, ?_⟩ (Or.inl ?_)
      · intro e _ hne
        rw [hx] at hne
        exact absurd rfl hne
      · simp [hcalls]
  | shut e he hgo hcalls hinv hx =>
      refine iff_of_true ⟨fun _ => ⟨hx, hinv⟩, ?_⟩ (Or.inl ?_)
      · intro e' _ hne
        rw [hx] at hne
        exact absurd rfl hne
      · intro e' he'
        rw [hcalls, List.mem_singleton] at he'
        exact absurd (Prod.mk.inj he').1 (entry_ne_unlock c).symm
  | stuck e he _ _ hcalls hinv hx =>
      have hfailed : Failed c x done := Or.inl ⟨.unlock (some ()), e, by simp [hcalls], he⟩
      refine ⟨?_, ?_⟩
      · rintro ⟨hatomic, -⟩
        exact Or.inr (hx.symm.trans (hatomic hfailed).1)
      · rintro (hgood | hsame)
        · exact absurd (hgood e (by simp [hcalls])) he
        · rw [hsame] at hx
          refine ⟨fun _ => ⟨hx, hinv⟩, ?_⟩
          intro e' _ hne
          rw [hx] at hne
          exact absurd rfl hne
  | completed hgo hcalls hx hsets =>
      have hgood : ∀ m e, (m, .err e) ∈ mutexCalls done → e = .success := by
        intro m e hmem
        rw [hcalls] at hmem
        obtain ⟨m', -, heq⟩ := List.mem_map.mp hmem
        exact (TtVal.err.inj (Prod.mk.inj heq).2).symm
      refine iff_of_true ⟨?_, fun e he _ => hsets e he⟩ (Or.inl fun e he => hgood _ e he)
      rintro (⟨m, e, hmem, he⟩ | ⟨hfalse, hc⟩)
      · exact absurd (hgood m e hmem) he
      · rw [(proceeds_iff hc).mp hgo] at hfalse
        cases hfalse

/-! ### The functions over a mutex that may fail -/

/-- Some answer to each mutex function. -/
def anyAnswer : (c : MutexCall Unit) → c.Res
  | .isLocked _ => false
  | .init _ | .destroy _ | .lock _ | .unlock _ | .trylock _ => .success

/-- What a step on the context answers, and what it leaves. -/
def answerOf : (p : ErrorOp F) → TtErrorContext F → p.Res
  | .readInitialized, x => x.initialized
  | .readLastError, x => x.lastError
  | .readCallback, x => x.callback
  | .writeInitialized _, _ | .writeLastError _, _ | .writeCallback _, _ | .invoke _ _, _ => ()

def afterOp : ErrorOp F → TtErrorContext F → TtErrorContext F
  | .writeInitialized b, x => { x with initialized := b }
  | .writeLastError e, x => { x with lastError := e }
  | .writeCallback callback, x => { x with callback := callback }
  | _, x => x

theorem errorExec_eq {χ : Type} (y : χ) (t : τ) (p : ErrorOp F) (x : TtErrorContext F) :
    errorExec y t p x = some (answerOf p x, afterOp p x) := by
  cases p with
  | _ => rfl

/-- The error functions over a mutex of which nothing is known. -/
abbrev anyMachine (F τ χ : Type) :
    Machine (errorSig F) τ (χ × ((c : MutexCall Unit) → c.Res)) (TtErrorContext F) :=
  (errorMachine F τ χ).withAny (mutexSig Unit)

section Runs

variable {χ : Type} [Nonempty χ] {t : τ} {α : Type} {x x' : TtErrorContext F}
  {es : List (errorSig F).Done} {a : α}

@[simp] theorem run_errorOp {p : ErrorOp F} {k : p.Res → Prog (errorSig F) α} :
    (anyMachine F τ χ).Run t (.step (.inl p : ErrorOp F ⊕ MutexCall Unit) k) x es a x' ↔
      ∃ es₁, es = ⟨.inl p, answerOf p x⟩ :: es₁ ∧
        (anyMachine F τ χ).Run t (k (answerOf p x)) (afterOp p x) es₁ a x' := by
  obtain ⟨y⟩ := ‹Nonempty χ›
  have : Nonempty (χ × ((c : MutexCall Unit) → c.Res)) := ⟨y, anyAnswer⟩
  exact Machine.run_step_det (M := anyMachine F τ χ) (p := .inl p) (fun _ => rfl)
    fun y => errorExec_eq y.1 t p x

@[simp] theorem run_mutexCall {m : MutexCall Unit} {k : m.Res → Prog (errorSig F) α} :
    (anyMachine F τ χ).Run t (.step (.inr m : ErrorOp F ⊕ MutexCall Unit) k) x es a x' ↔
      ∃ r es₁, es = ⟨.inr m, r⟩ :: es₁ ∧ (anyMachine F τ χ).Run t (k r) x es₁ a x' :=
  Machine.run_withAny_inr anyAnswer

end Runs

/-! ### One call

Every function but `tt_error_init` is `locked` around what it does to the context, then
`leaving` with what it does after the section. -/

def locked (inside : Prog (errorSig F) TtError) : Prog (errorSig F) TtError :=
  .step (.inl .readInitialized) fun (initialized : Bool) =>
  if !initialized then .ret .notInitialized else
  .step (.inr (.lock (some ()))) fun (result : TtError) =>
  if result ≠ .success then .ret result else inside

def leaving (tail : Prog (errorSig F) TtError) : Prog (errorSig F) TtError :=
  .step (.inr (.unlock (some ()))) fun (result : TtError) =>
  if result ≠ .success then .ret result else tail

theorem errorAnySys_again (p : (errorSig F).Op) (r : (errorSig F).Res p) :
    (errorAnySys F τ).again p r = false := by
  rcases p with p | p
  · rfl
  · rfl

section Courses

variable {χ : Type} [Nonempty χ] {t : τ} {x x' : TtErrorContext F}
  {es d : List (errorSig F).Done} {v : TtVal} {c : ErrorCall F} {g : TtError → TtVal}

theorem course_locked {inside : Prog (errorSig F) TtError} (hc : c ≠ .init)
    (h : (anyMachine F τ χ).Run t (locked inside >>= fun e => .ret (g e)) x es v x')
    (hinside : x.initialized = true → ∀ es₁,
      (anyMachine F τ χ).Run t (inside >>= fun e => .ret (g e)) x es₁ v x' →
      Course c x (⟨.inl .readInitialized, true⟩ :: ⟨.inr (.lock (some ())), .success⟩ :: es₁) v x') :
    Course c x es v x' := by
  cases hx : x.initialized with
  | false =>
      simp only [locked, Prog.step_bind, run_errorOp, answerOf, afterOp, hx, Bool.not_false,
        if_true] at h
      obtain ⟨_, rfl, h⟩ := h
      obtain ⟨rfl, rfl, rfl⟩ := Machine.run_ret_iff.mp h
      exact .refused (by simp [proceeds_iff hc, hx]) rfl rfl rfl
  | true =>
      simp only [locked, Prog.step_bind, run_errorOp, answerOf, afterOp, hx, Bool.not_true,
        Bool.false_eq_true, if_false, run_mutexCall] at h
      obtain ⟨_, rfl, r, es₁, rfl, h⟩ := h
      by_cases hr : r = .success
      · rw [if_neg (not_not_intro hr)] at h
        subst hr
        exact hinside hx es₁ h
      · rw [if_pos hr] at h
        obtain ⟨rfl, rfl, rfl⟩ := Machine.run_ret_iff.mp h
        refine .shut r hr ((proceeds_iff hc).mpr hx) ?_ rfl rfl
        rw [entry_eq hc]
        rfl

theorem course_leaving {tail : Prog (errorSig F) TtError} (hc : c ≠ .init) (hx : x.initialized = true)
    (hcalls : mutexCalls d = [(.lock (some ()), .err .success)]) (hinv : invoked d = [])
    (h : (anyMachine F τ χ).Run t (leaving tail >>= fun e => .ret (g e)) (effect c x) es v x')
    (htail : ∀ es₁, (anyMachine F τ χ).Run t (tail >>= fun e => .ret (g e)) (effect c x) es₁ v x' →
      x' = effect c x ∧ mutexCalls es₁ = [] ∧
        ∀ e, ErrorCall.sets c = some e → v = .err .success ∧ invoked es₁ = due x.callback e) :
    Course c x (d ++ es) v x' := by
  simp only [leaving, Prog.step_bind, run_mutexCall] at h
  obtain ⟨r, es₁, rfl, h⟩ := h
  have hcalls' : mutexCalls (d ++ ⟨.inr (.unlock (some ())), r⟩ :: es₁)
      = (.lock (some ()), .err .success) :: (.unlock (some ()), .err r) :: mutexCalls es₁ := by
    rw [mutexCalls, Machine.seconds_append, List.map_append, ← mutexCalls, hcalls]
    rfl
  have hinv' : invoked (d ++ ⟨.inr (.unlock (some ())), r⟩ :: es₁) = invoked es₁ := by
    rw [invoked, List.filterMap_append, ← invoked, hinv]
    rfl
  by_cases hr : r = .success
  · rw [if_neg (not_not_intro hr)] at h
    obtain ⟨hs, hnone, hsets⟩ := htail es₁ h
    refine .completed ((proceeds_iff hc).mpr hx) ?_ hs ?_
    · rw [hcalls', hnone, hr, entry_eq hc, leave_eq hc]
      rfl
    · rw [hinv']
      exact hsets
  · rw [if_pos hr] at h
    obtain ⟨rfl, rfl, rfl⟩ := Machine.run_ret_iff.mp h
    exact .stuck r hr hx hc hcalls' hinv' rfl

theorem course_init (h : (anyMachine F τ χ).Run t (errorBody .init) x es v x') :
    Course .init x es v x' := by
  obtain ⟨last, callback, _ | _⟩ := x
  · simp only [errorBody, ttErrorInit, Prog.step_bind, run_errorOp, answerOf, afterOp,
      Bool.false_eq_true, if_false, run_mutexCall] at h
    obtain ⟨_, rfl, r, es₁, rfl, h⟩ := h
    by_cases hr : r = .success
    · subst hr
      simp only [ne_eq, not_true, if_false, Prog.step_bind, run_errorOp, afterOp] at h
      obtain ⟨_, rfl, _, rfl, _, rfl, h⟩ := h
      obtain ⟨rfl, rfl, rfl⟩ := Machine.run_ret_iff.mp h
      exact .completed rfl rfl rfl (by rintro e ⟨⟩)
    · rw [if_pos hr] at h
      obtain ⟨rfl, rfl, rfl⟩ := Machine.run_ret_iff.mp h
      exact .shut r hr rfl rfl rfl rfl
  · simp only [errorBody, ttErrorInit, Prog.step_bind, run_errorOp, answerOf, afterOp, if_true] at h
    obtain ⟨_, rfl, h⟩ := h
    obtain ⟨rfl, rfl, rfl⟩ := Machine.run_ret_iff.mp h
    exact .refused (by rintro ⟨⟩) rfl rfl rfl

/-- A function that only reads. -/
theorem course_getLast (hc : c ≠ .init) (hsame : ∀ y, effect c y = y)
    (hsets : ErrorCall.sets c = none)
    (h : (anyMachine F τ χ).Run t (ttErrorGetLast >>= fun e => .ret (g e)) x es v x') :
    Course c x es v x' := by
  refine course_locked hc h fun hx es₁ h => ?_
  simp only [Prog.step_bind, run_errorOp, answerOf, afterOp] at h
  obtain ⟨es₂, rfl, h⟩ := h
  rw [← hsame x] at h
  refine course_leaving (d := [_, _, _]) hc hx rfl rfl h fun es₃ h => ?_
  obtain ⟨rfl, rfl, rfl⟩ := Machine.run_ret_iff.mp h
  exact ⟨rfl, rfl, by simp [hsets]⟩

/-- `tt_error_set_last`, also as `tt_error_clear`. -/
theorem course_setLast {e : TtError} (hc : c ≠ .init)
    (hsame : ∀ y, effect c y = effect (.setLast e) y) (hsets : ErrorCall.sets c = some e)
    (h : (anyMachine F τ χ).Run t (errorBody (.setLast e)) x es v x') : Course c x es v x' := by
  refine course_locked hc h fun hx es₁ h => ?_
  simp only [Prog.step_bind, run_errorOp, answerOf, afterOp] at h
  obtain ⟨_, rfl, es₂, rfl, h⟩ := h
  rw [← effect_setLast hx, ← hsame] at h
  refine course_leaving (d := [_, _, _, _]) hc hx rfl rfl h fun es₃ h => ?_
  generalize x.callback = callback at h ⊢
  rcases callback with _ | f
  · obtain ⟨rfl, rfl, rfl⟩ := Machine.run_ret_iff.mp h
    refine ⟨rfl, rfl, ?_⟩
    simp [due, invoked]
  · by_cases he : e = .success
    · simp only [he, ne_eq, not_true, if_false] at h
      obtain ⟨rfl, rfl, rfl⟩ := Machine.run_ret_iff.mp h
      refine ⟨rfl, rfl, ?_⟩
      simp [hsets, due, invoked, he]
    · simp only [ne_eq, he, not_false_eq_true, if_true, Prog.step_bind, run_errorOp, answerOf,
        afterOp] at h
      obtain ⟨_, rfl, h⟩ := h
      obtain ⟨rfl, rfl, rfl⟩ := Machine.run_ret_iff.mp h
      refine ⟨rfl, rfl, ?_⟩
      simp [hsets, due, invoked, he]

/-- Every call goes one of the four ways. -/
theorem course (h : (anyMachine F τ χ).Run t (errorBody c) x es v x') : Course c x es v x' := by
  by_cases hc : c = .init
  · subst hc
    exact course_init h
  cases c with
  | init => exact absurd rfl hc
  | getLast => exact course_getLast hc (fun _ => rfl) rfl h
  | isSuccess =>
      rw [errorBody, ttErrorIsSuccess, Prog.bind_assoc] at h
      exact course_getLast hc (fun _ => rfl) rfl h
  | setLast e => exact course_setLast hc (fun _ => rfl) rfl h
  | clear => exact course_setLast hc effect_clear rfl h
  | deinit =>
      refine course_locked hc h fun hx es₁ h => ?_
      simp only [Prog.step_bind, run_errorOp, afterOp] at h
      obtain ⟨_, rfl, es₂, rfl, h⟩ := h
      rw [← effect_deinit hx] at h
      refine course_leaving (d := [_, _, _, _]) hc hx rfl rfl h fun es₃ h => ?_
      obtain ⟨rfl, rfl, rfl⟩ := Machine.run_ret_iff.mp h
      exact ⟨rfl, rfl, by rintro e ⟨⟩⟩
  | registerCallback f =>
      refine course_locked hc h fun hx es₁ h => ?_
      simp only [Prog.step_bind, run_errorOp, afterOp] at h
      obtain ⟨es₂, rfl, h⟩ := h
      rw [← effect_registerCallback hx] at h
      refine course_leaving (d := [_, _, _]) hc hx rfl rfl h fun es₃ h => ?_
      obtain ⟨rfl, rfl, rfl⟩ := Machine.run_ret_iff.mp h
      exact ⟨rfl, rfl, by rintro e ⟨⟩⟩

end Courses

end Error

open Error

/--
**A call on the error context is atomic on failure exactly if the unlock does not
fail.** From every context, for every call and every outcome of the mutex functions, the
call returns, and it is atomic if and only if `tt_mutex_unlock` was not called or
succeeded, or the call had nothing to change.
-/
theorem ttError_failure_atomic_iff {F τ : Type} (t : τ) (c : ErrorCall F) (x : TtErrorContext F) :
    (∃ es v x', (errorAnySys F τ).Run t ((errorAnySys F τ).body c) x es v x') ∧
      ∀ es v x', (errorAnySys F τ).Run t ((errorAnySys F τ).body c) x es v x' →
        (AtomicOnFailure c x es v x' ↔
          (∀ e, (.unlock (some ()), .err e) ∈ mutexCalls es → e = .success) ∨ effect c x = x) := by
  refine ⟨?_, fun es v x' h => (course h).atomic_iff⟩
  refine Machine.run_of_every (P := fun _ => True) errorAnySys_again ?_
    (Prog.every_of_forall (fun _ => trivial) _) x
  intro p _ s
  rcases p with p | m
  · exact ⟨((), anyAnswer), answerOf p s, afterOp p s, errorExec_eq () t p s⟩
  · exact ⟨((), anyAnswer), anyAnswer m, s, rfl⟩

/-- Setting the error that is already there fails, and has changed nothing. -/
theorem ttError_failure_atomic_same :
    ∃ es s', (errorAnySys Unit Unit).Run () ((errorAnySys Unit Unit).body (.setLast .busy))
        ⟨.busy, some (), true⟩ es (.err .mutexError) s' ∧
      AtomicOnFailure (.setLast .busy) ⟨.busy, some (), true⟩ es (.err .mutexError) s' := by
  obtain ⟨es, s', h⟩ : ∃ es s', (errorAnySys Unit Unit).Run ()
      ((errorAnySys Unit Unit).body (.setLast .busy)) ⟨.busy, some (), true⟩ es
      (.err .mutexError) s' :=
    ⟨_, _, Machine.run_of_eval [((), anyAnswer), ((), anyAnswer), ((), anyAnswer), ((), anyAnswer),
      ((), Function.update anyAnswer (.unlock (some ())) .mutexError)] rfl⟩
  exact ⟨es, s', h, ((ttError_failure_atomic_iff () (.setLast .busy) _).2 es _ s' h).mpr (Or.inr rfl)⟩

/-- **An error that was set although the call failed.** The context is initialised, then
`tt_error_set_last` cannot give the mutex back. -/
theorem ttError_failure_not_atomic :
    ∃ (L : List (LogEntry (errorSig Nat) Nat (ErrorCall Nat) TtVal)) (s : TtErrorContext Nat),
      Sequential (errorAnySys Nat Nat) .zero L s ∧
      ∃ es s', (errorAnySys Nat Nat).Run 0 (errorBody (.setLast .busy)) s es (.err .mutexError) s' ∧
        s'.lastError = .busy ∧
        ¬ AtomicOnFailure (.setLast .busy) s es (.err .mutexError) s' := by
  obtain ⟨es, hinit⟩ : ∃ es, (errorAnySys Nat Nat).Run 0 ((errorAnySys Nat Nat).body .init) .zero
      es (.err .success) ⟨.success, none, true⟩ :=
    ⟨_, Machine.run_of_eval (List.replicate 5 ((), anyAnswer)) rfl⟩
  have h₀ : Sequential (errorAnySys Nat Nat) .zero [] .zero := .nil
  refine ⟨_, _, h₀.snoc (e := ⟨0, 0, .init, es, .err .success⟩) hinit, _, _, Machine.run_of_eval
    (List.replicate 4 ((), anyAnswer) ++
      [((), Function.update anyAnswer (.unlock (some ())) .mutexError)]) rfl, rfl, ?_⟩
  intro hatomic
  have hsets := hatomic.2 .busy rfl (by rintro ⟨⟩)
  cases hsets.1

end TinyTools
