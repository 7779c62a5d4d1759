/-
Callbacks may call the error functions.

`tt_error_set_last` reads the callback inside its critical section and invokes it after the
unlock, and then only returns.  So when a callback starts the mutex is free and the context
is as the calls made so far have left it, the enclosing one among them; and whatever
the callback makes of the context, the enclosing call does not look at it again.

That is the invariant of `Script.meets`: wherever client code has control, the context
is the effect of all calls made, in the order in which they were, and the mutex is free.
-/
import TinyTools.Proofs.Error.Failure

namespace TinyTools

open Interleave

namespace Error

variable {F τ : Type}

/-- The context after some calls from program start. -/
def afterCalls (calls : List (ErrorCall F)) : TtErrorContext F :=
  calls.foldl (fun x c => effect c x) .zero

/-- What a client may count on where it has control. -/
def Idle (calls : List (ErrorCall F)) (s : TtErrorContext F × Option τ) : Prop :=
  s = (afterCalls calls, none)

/-- A call in whose course a callback was invoked succeeds. -/
def Encloses (_ : ErrorCall F) (v : TtVal) (called : Bool) : Prop :=
  called = true → v = .err .success

/-- Only a free mutex is locked, only a held one unlocked. -/
def MutexPre (p : (errorSig F).Op) (s : TtErrorContext F × Option τ) : Prop :=
  match p with
  | .inr (.lock _) => s.2 = none
  | .inr (.unlock _) => s.2 ≠ none
  | _ => True

/-- The program meets the conditions of a call, `L` being what was performed before. -/
def Fine (t : τ) (c : ErrorCall F)
    (L : List ((markSig (ErrorCall F) TtVal).sum (errorSig F)).Done)
    (m : Prog ((markSig (ErrorCall F) TtVal).sum (errorSig F)) (TtVal × Bool))
    (s : TtErrorContext F × Option τ) : Prop :=
  (errorNested F τ).Meets t (ScriptPre callsBack Idle Encloses MutexPre)
    (fun L r s => Idle (entered L) s ∧ Encloses c r.1 r.2) L m s

section Steps

variable {t : τ} {c : ErrorCall F}
  {L : List ((markSig (ErrorCall F) TtVal).sum (errorSig F)).Done} {x : TtErrorContext F}
  {inner : (errorSig F).Op → Prog ((markSig (ErrorCall F) TtVal).sum (errorSig F)) Unit}

/-- A primitive that does not call back. -/
theorem fine_step {p : (errorSig F).Op} {r : (errorSig F).Res p} {s s' : TtErrorContext F × Option τ}
    (hexec : ∀ y, (errorSys F τ).exec y t p s = some (r, s')) (hp : callsBack p = false)
    (hpre : MutexPre p s) {k : (errorSig F).Res p → Prog (errorSig F) TtVal}
    (hk : ∀ L', entered L' = entered L → Fine t c L' ((k r).expand callsBack inner false) s') :
    Fine t c L ((Prog.step p k).expand callsBack inner false) s := by
  refine (Machine.meets_step_det (M := errorNested F τ) (p := .inr p) hexec).mpr ⟨⟨hpre, ?_⟩, ?_⟩
  · intro hback
    rw [hp] at hback
    cases hback
  · rw [hp, if_neg Bool.false_ne_true]
    exact hk _ (entered_inr L p r)

theorem fine_errorOp {h : Option τ} {p : ErrorOp F} (hp : callsBack (.inl p) = false)
    {k : p.Res → Prog (errorSig F) TtVal}
    (hk : ∀ L', entered L' = entered L →
      Fine t c L' ((k (answerOf p x)).expand callsBack inner false) (afterOp p x, h)) :
    Fine t c L ((Prog.step (.inl p : ErrorOp F ⊕ MutexCall Unit) k).expand callsBack inner false)
      (x, h) := by
  refine fine_step (p := .inl p) ?_ hp trivial hk
  intro y
  show (errorExec y t p x).map _ = _
  rw [errorExec_eq]
  rfl

theorem fine_init {h : Option τ} {k : TtError → Prog (errorSig F) TtVal}
    (hk : ∀ L', entered L' = entered L →
      Fine t c L' ((k .success).expand callsBack inner false) (x, none)) :
    Fine t c L ((Prog.step (.inr (.init (some ())) : ErrorOp F ⊕ MutexCall Unit) k).expand callsBack
      inner false) (x, h) :=
  fine_step (p := .inr (.init (some ()))) (fun _ => rfl) rfl trivial hk

theorem fine_lock {k : TtError → Prog (errorSig F) TtVal}
    (hk : ∀ L', entered L' = entered L →
      Fine t c L' ((k .success).expand callsBack inner false) (x, some t)) :
    Fine t c L ((Prog.step (.inr (.lock (some ())) : ErrorOp F ⊕ MutexCall Unit) k).expand callsBack
      inner false) (x, none) :=
  fine_step (p := .inr (.lock (some ()))) (s := (x, none)) (fun _ => rfl) rfl rfl hk

theorem fine_unlock {k : TtError → Prog (errorSig F) TtVal}
    (hk : ∀ L', entered L' = entered L →
      Fine t c L' ((k .success).expand callsBack inner false) (x, none)) :
    Fine t c L ((Prog.step (.inr (.unlock (some ())) : ErrorOp F ⊕ MutexCall Unit) k).expand callsBack
      inner false) (x, some t) :=
  fine_step (p := .inr (.unlock (some ()))) (s := (x, some t)) (fun _ => rfl) rfl
    (Option.some_ne_none t) hk

/-- A return before any callback. -/
theorem fine_ret {v : TtVal} (hx : x = afterCalls (entered L)) :
    Fine t c L ((Prog.ret v).expand callsBack inner false) (x, (none : Option τ)) :=
  ⟨by rw [hx]; rfl, by rintro ⟨⟩⟩

/-- A callback, after which the call returns. -/
theorem fine_invoke {f : F} {e : TtError}
    (hinner : Minds (errorSys F τ).toMachine t callsBack Idle Encloses MutexPre
      (inner (.inl (.invoke f e)))) (hx : x = afterCalls (entered L)) :
    Fine t c L ((Prog.step (.inl (.invoke f e) : ErrorOp F ⊕ MutexCall Unit) fun _ =>
      .ret (.err .success)).expand callsBack inner false) (x, (none : Option τ)) := by
  have hidle : Idle (entered L) (x, (none : Option τ)) := by
    rw [hx]
    rfl
  refine (Machine.meets_step_det (M := errorNested F τ) (p := .inr (.inl (.invoke f e)))
    (r := ()) fun _ => rfl).mpr ⟨⟨trivial, fun _ => hidle⟩, ?_⟩
  rw [if_pos (show callsBack (.inl (.invoke f e)) = true from rfl)]
  have hidle' : Idle (entered (L ++ [⟨.inr (.inl (.invoke f e)), ()⟩])) (x, (none : Option τ)) := by
    rw [entered_inr]
    exact hidle
  refine (hinner _ _ hidle').bind ?_
  intro L' _ s' hs'
  exact ⟨hs', fun _ => rfl⟩

end Steps

/-! ### The functions -/

section Calls

variable {t : τ} {c : ErrorCall F} {calls : List (ErrorCall F)}
  {L : List ((markSig (ErrorCall F) TtVal).sum (errorSig F)).Done} {g : TtError → TtVal}
  {inner : (errorSig F).Op → Prog ((markSig (ErrorCall F) TtVal).sum (errorSig F)) Unit}

theorem afterCalls_snoc (calls : List (ErrorCall F)) (c : ErrorCall F) :
    afterCalls (calls ++ [c]) = effect c (afterCalls calls) :=
  List.foldl_append

theorem fine_locked {inside : Prog (errorSig F) TtError} {x : TtErrorContext F}
    (hno : x.initialized = false → x = afterCalls (entered L))
    (hinside : x.initialized = true → ∀ L', entered L' = entered L →
      Fine t c L' ((inside >>= fun e => .ret (g e)).expand callsBack inner false) (x, some t)) :
    Fine t c L ((locked inside >>= fun e => .ret (g e)).expand callsBack inner false) (x, none) := by
  refine fine_errorOp rfl fun L₁ hL₁ => ?_
  cases hx : x.initialized with
  | false =>
      rw [answerOf, hx]
      refine fine_ret ?_
      rw [hL₁]
      exact hno hx
  | true =>
      rw [answerOf, hx]
      exact fine_lock fun L₂ hL₂ => hinside hx L₂ (hL₂.trans hL₁)

theorem fine_leaving {tail : Prog (errorSig F) TtError} {x : TtErrorContext F}
    (htail : ∀ L', entered L' = entered L →
      Fine t c L' ((tail >>= fun e => .ret (g e)).expand callsBack inner false) (x, none)) :
    Fine t c L ((leaving tail >>= fun e => .ret (g e)).expand callsBack inner false) (x, some t) :=
  fine_unlock fun L₁ hL₁ => htail L₁ hL₁

theorem fine_getLast (hsame : ∀ y, effect c y = y)
    (hL : entered L = calls ++ [c]) :
    Fine t c L ((ttErrorGetLast >>= fun e => .ret (g e)).expand callsBack inner false)
      (afterCalls calls, none) := by
  have hafter : afterCalls (entered L) = afterCalls calls := by
    rw [hL, afterCalls_snoc, hsame]
  refine fine_locked (fun _ => hafter.symm) fun hx L₁ hL₁ => ?_
  refine fine_errorOp rfl fun L₂ hL₂ => ?_
  refine fine_leaving fun L₃ hL₃ => ?_
  refine fine_ret ?_
  rw [hL₃, hL₂, hL₁, hafter]
  rfl

theorem fine_setLast {e : TtError} (hc : c ≠ .init) (hsame : ∀ y, effect c y = effect (.setLast e) y)
    (hL : entered L = calls ++ [c])
    (hinner : ∀ p, Minds (errorSys F τ).toMachine t callsBack Idle Encloses MutexPre (inner p)) :
    Fine t c L ((errorBody (.setLast e)).expand callsBack inner false) (afterCalls calls, none) := by
  have hafter : afterCalls (entered L) = effect c (afterCalls calls) := by
    rw [hL, afterCalls_snoc]
  refine fine_locked ?_ fun hx L₁ hL₁ => ?_
  · intro hx
    rw [hafter, effect_refused hc hx]
  refine fine_errorOp rfl fun L₂ hL₂ => ?_
  refine fine_errorOp rfl fun L₃ hL₃ => ?_
  refine fine_leaving fun L₄ hL₄ => ?_
  have hnow : afterOp (.writeLastError e) (afterCalls calls) = afterCalls (entered L₄) := by
    rw [hL₄, hL₃, hL₂, hL₁, hafter, hsame, effect_setLast hx]
    rfl
  simp only [answerOf, afterOp] at hnow ⊢
  generalize (afterCalls calls).callback = callback at hnow ⊢
  rcases callback with _ | f
  · exact fine_ret hnow
  · by_cases he : e = .success
    · simp only [he, ne_eq, not_true, if_false]
      rw [he] at hnow
      exact fine_ret hnow
    · simp only [ne_eq, he, not_false_eq_true, if_true]
      exact fine_invoke (hinner _) hnow

/-- Every call is fine, whatever its callback does. -/
theorem fine_body (hL : entered L = calls ++ [c])
    (hinner : ∀ p, Minds (errorSys F τ).toMachine t callsBack Idle Encloses MutexPre (inner p)) :
    Fine t c L ((errorBody c).expand callsBack inner false) (afterCalls calls, none) := by
  have hafter : afterCalls (entered L) = effect c (afterCalls calls) := by
    rw [hL, afterCalls_snoc]
  cases c with
  | init =>
      rcases hcalls : afterCalls calls with ⟨last, callback, _ | _⟩
      · rw [hcalls] at hafter
        refine fine_errorOp rfl fun L₁ hL₁ => fine_init fun L₂ hL₂ => ?_
        refine fine_errorOp rfl fun L₃ hL₃ => fine_errorOp rfl fun L₄ hL₄ => ?_
        refine fine_errorOp rfl fun L₅ hL₅ => fine_ret ?_
        rw [hL₅, hL₄, hL₃, hL₂, hL₁, hafter]
        rfl
      · rw [hcalls] at hafter
        refine fine_errorOp rfl fun L₁ hL₁ => fine_ret ?_
        rw [hL₁, hafter]
        rfl
  | deinit =>
      refine fine_locked ?_ fun hx L₁ hL₁ => ?_
      · intro hx
        rw [hafter, effect_refused (by rintro ⟨⟩) hx]
      refine fine_errorOp rfl fun L₂ hL₂ => fine_errorOp rfl fun L₃ hL₃ => ?_
      refine fine_leaving fun L₄ hL₄ => fine_ret ?_
      rw [hL₄, hL₃, hL₂, hL₁, hafter, effect_deinit hx]
      rfl
  | getLast => exact fine_getLast (fun _ => rfl) hL
  | isSuccess =>
      rw [errorBody, ttErrorIsSuccess, Prog.bind_assoc]
      exact fine_getLast (fun _ => rfl) hL
  | setLast e => exact fine_setLast (by rintro ⟨⟩) (fun _ => rfl) hL hinner
  | clear => exact fine_setLast (by rintro ⟨⟩) effect_clear hL hinner
  | registerCallback f =>
      refine fine_locked ?_ fun hx L₁ hL₁ => ?_
      · intro hx
        rw [hafter, effect_refused (by rintro ⟨⟩) hx]
      refine fine_errorOp rfl fun L₂ hL₂ => fine_leaving fun L₃ hL₃ => fine_ret ?_
      rw [hL₃, hL₂, hL₁, hafter, effect_registerCallback hx]
      rfl

theorem errorNested_again (p : ((markSig (ErrorCall F) TtVal).sum (errorSig F)).Op)
    (r : ((markSig (ErrorCall F) TtVal).sum (errorSig F)).Res p) :
    (errorNested F τ).again p r = false :=
  Machine.marked_again (M := (errorSys F τ).toMachine) errorSys_again p r

/-- Every script keeps what clients count on. -/
theorem script_minds (t : τ) (b : ErrorScript F) :
    Minds (errorSys F τ).toMachine t callsBack Idle Encloses MutexPre (errorScript b) := by
  refine Script.meets ?_ b
  intro c inner hinner L calls s hidle hL
  rw [show s = (afterCalls calls, none) from hidle]
  exact fine_body hL hinner

end Calls

end Error

open Error

/--
**Callbacks may re-enter the error functions.** Whatever one thread calls from program
start, and whatever the callbacks call in turn, to any depth, it all returns, and leaves
the context that all the calls make in the order in which they were made.  Meanwhile the
mutex is free wherever a call comes to lock it, a callback starts or a call returns,
and a call in whose course a callback was invoked returns `TT_SUCCESS`.
-/
theorem ttError_reentrant {F τ : Type} (t : τ) (b : ErrorScript F) :
    (∃ es s, (errorNested F τ).Run t (errorScript b) (.zero, none) es () s) ∧
      (∀ es s, (errorNested F τ).Run t (errorScript b) (.zero, none) es () s →
        s = ((entered es).foldl (fun x c => effect c x) .zero, none)) ∧
      ∀ es m s, (errorNested F τ).Steps t (errorScript b) (.zero, none) es m s →
        (∀ mutex k, m = .step (.inr (.inr (.lock mutex))) k → s.2 = none) ∧
        (∀ mutex k, m = .step (.inr (.inr (.unlock mutex))) k → s.2 ≠ none) ∧
        (∀ f e k, m = .step (.inr (.inl (.invoke f e))) k → s.2 = none) ∧
        (∀ c v called k, m = .step (.inl (.leave c v called)) k →
          s.2 = none ∧ (called = true → v = .err .success)) := by
  have hmeets := script_minds t b [] (.zero, none) rfl
  obtain ⟨hreturns, hall⟩ := hmeets.run errorNested_again
  refine ⟨?_, ?_, ?_⟩
  · obtain ⟨es, ⟨⟩, s, hrun⟩ := hreturns
    exact ⟨es, s, hrun⟩
  · intro es s hrun
    exact hall es () s hrun
  · intro es m s hsteps
    have hrest := hmeets.steps hsteps
    refine ⟨?_, ?_, ?_, ?_⟩
    · rintro mutex k rfl
      exact hrest.1.1
    · rintro mutex k rfl
      exact hrest.1.1
    · rintro f e k rfl
      exact congrArg Prod.snd (hrest.1.2 rfl)
    · rintro c v called k rfl
      exact ⟨congrArg Prod.snd hrest.1.1, hrest.1.2⟩

end TinyTools
