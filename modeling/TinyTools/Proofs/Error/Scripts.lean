/-
Callbacks that call the error functions, in any number of threads and in either build.

`Proofs/Error/Reentry.lean` has one thread over a mutex that works.  Here every thread runs
client code of its own whose callbacks call the error functions again, to any depth, down
to the steps of the mutex that the build has.  Each call is still one step, the one in
which it leaves its critical section, and the callback that it owes comes after that.  So
`atomic`, in which the calls are such steps and the state is the list of those made so
far, does whatever the linked library can be seen to do.

Nor do the threads deadlock: no thread has the mutex while it runs a callback.
-/
import TinyTools.Lib.Reentrant
import TinyTools.Lib.Section
import TinyTools.Proofs.Error.Linked

namespace TinyTools

open Interleave

namespace Error

variable {F τ κ : Type}

/-! ### Calls as single steps -/

/-- A call, and a callback that it owes. -/
inductive AtomOp (F : Type) : Type
  | perform (c : ErrorCall F)
  | invoke (f : F) (e : TtError)

@[reducible] def AtomOp.Res {F : Type} : AtomOp F → Type
  | .perform _ => TtVal × Option (F × TtError)
  | .invoke _ _ => Unit

abbrev atomSig (F : Type) : Sig := ⟨AtomOp F, AtomOp.Res⟩

/-- What a call returns after the calls `before`, and the callback that it owes. -/
def answer (before : List (ErrorCall F)) : ErrorCall F → TtVal × Option (F × TtError)
  | .getLast => (.err (lastSet before), none)
  | .isSuccess => (.bool (decide (lastSet before = .success)), none)
  | .setLast e => (.err .success, if e = .success then none else (lastRegistered before).map (·, e))
  | .clear | .registerCallback _ | .init | .deinit => (.err .success, none)

/-- The calls made so far, one after the other. -/
def atomMachine (F τ : Type) : Machine (atomSig F) τ Unit (List (ErrorCall F)) where
  exec _ _
    | .perform c, before => some (answer before c, before ++ [c])
    | .invoke _ _, before => some ((), before)

def atomBody (c : ErrorCall F) : Prog (atomSig F) TtVal :=
  .step (.perform c) fun (r : TtVal × Option (F × TtError)) =>
  match r with
  | (v, none) => .ret v
  | (v, some (f, e)) => .step (.invoke f e) fun _ => .ret v

def atomBack : (atomSig F).Op → Bool
  | .perform _ => false
  | .invoke _ _ => true

/-- The primitive of the functions that calls back. -/
def atomPlace : (atomSig F).Op → (errorSig F).Op
  | .perform _ => .inl .readInitialized
  | .invoke f e => .inl (.invoke f e)

/-- Threads that run client code, every call of which is one step. -/
def atomic (τ : Type) (code : κ → ErrorScript F) :
    Sys ((markSig (ErrorCall F) TtVal).sum (atomSig F)) τ Unit (List (ErrorCall F)) κ Unit where
  toMachine := (atomMachine F τ).marked (ErrorCall F) TtVal
  body c := ((code c).via atomPlace).prog atomBack atomBody

/-- Threads that run client code over the library of this build, once it is initialised. -/
def scripted (b : MutexBuild) (τ : Type) (code : κ → ErrorScript F) :
    Sys ((markSig (ErrorCall F) TtVal).sum ((errorOpSig F).sum b.sig)) τ Unit
      (TtErrorContext F × b.State τ) κ Unit where
  toMachine := ((errorMachine F τ Unit).sum (b.steady τ)).marked (ErrorCall F) TtVal
  body c := (errorScript (code c)).link (Prog.beside b.mutex)

/-! ### What is seen -/

/-- Callbacks with their arguments. -/
abbrev callbackSig (F : Type) : Sig := ⟨F × TtError, fun _ => Unit⟩

/-- The calls, what they return, and the callbacks. -/
abbrev heardSig (F : Type) : Sig := (markSig (ErrorCall F) TtVal).sum (callbackSig F)

def invocation : Showing (errorOpSig F) (callbackSig F)
  | ⟨.invoke f e, _⟩ => some ⟨(f, e), ()⟩
  | _ => none

def atomHeard : Showing ((markSig (ErrorCall F) TtVal).sum (atomSig F)) (heardSig F) :=
  heard fun
    | ⟨.invoke f e, _⟩ => some ⟨(f, e), ()⟩
    | ⟨.perform _, _⟩ => none

/-- Of the steps of the library nothing but the callbacks is seen. -/
def linkHeard {U : Sig} :
    Showing ((markSig (ErrorCall F) TtVal).sum ((errorOpSig F).sum U)) (heardSig F) :=
  heard fun d => (own d).bind invocation

/-! ### The functions up to their callbacks -/

/-- `tt_error_set_last` as far as its unlock. -/
def setLastUntil (error : TtError) : Prog (errorSig F) (TtVal × Option (F × TtError)) :=
  .step (.inl .readInitialized) fun (initialized : Bool) =>
  if !initialized then .ret (.err .notInitialized, none) else
  .step (.inr (.lock (some ()))) fun (result : TtError) =>
  if result ≠ .success then .ret (.err result, none) else
  .step (.inl (.writeLastError error)) fun _ =>
  .step (.inl .readCallback) fun (callback : Option F) =>
  .step (.inr (.unlock (some ()))) fun (result : TtError) =>
  if result ≠ .success then .ret (.err result, none) else
  .ret (.err .success, if error = .success then none else callback.map (·, error))

/-- The others call nothing back. -/
def callUntil : ErrorCall F → Prog (errorSig F) (TtVal × Option (F × TtError))
  | .setLast error => setLastUntil error
  | .clear => setLastUntil .success
  | c => errorBody c >>= fun v => .ret (v, none)

def atomFunction : (p : (atomSig F).Op) → Prog (errorSig F) ((atomSig F).Res p)
  | .perform c => callUntil c
  | .invoke f e => .step (.inl (.invoke f e)) .ret

/-- The callback that is due, and the return. -/
def invokeDue : TtVal × Option (F × TtError) → Prog (errorSig F) TtVal
  | (v, none) => .ret v
  | (v, some (f, e)) => .step (.inl (.invoke f e)) fun _ => .ret v

theorem setLast_eq (error : TtError) :
    (errorBody (.setLast error) : Prog (errorSig F) TtVal) = (setLastUntil error).bind invokeDue := by
  show Prog.step _ _ = Prog.step _ _
  congr 1
  funext initialized
  cases initialized with
  | false => rfl
  | true =>
      show Prog.step _ _ = Prog.step _ _
      congr 1
      funext result
      by_cases hresult : result = .success
      · subst hresult
        show Prog.step _ (fun _ => Prog.step _ fun _ => Prog.step _ _)
          = Prog.step _ fun _ => Prog.step _ fun _ => Prog.step _ _
        congr 1
        funext _
        congr 1
        funext callback
        congr 1
        funext result
        by_cases hresult : result = .success
        · subst hresult
          by_cases herror : error = .success
          · subst herror
            cases callback <;> rfl
          · simp only [ne_eq, herror, not_true_eq_false, not_false_eq_true, if_true, if_false]
            cases callback <;> rfl
        · simp only [ne_eq, hresult, not_false_eq_true, if_true]
          rfl
      · simp only [ne_eq, hresult, not_false_eq_true, if_true]
        rfl

/-- A function is what comes up to its callback, and the callback. -/
theorem body_until (c : ErrorCall F) : errorBody c = (callUntil c).bind invokeDue := by
  have hquiet : ∀ m : Prog (errorSig F) TtVal, (m >>= fun v => .ret (v, none)).bind invokeDue = m :=
    fun m => (Prog.bind_assoc m _ _).trans (Prog.bind_ret m)
  cases c with
  | setLast error => exact setLast_eq error
  | clear => exact setLast_eq .success
  | init | deinit | getLast | isSuccess | registerCallback f => exact (hquiet _).symm

theorem body_eq (c : ErrorCall F) : errorBody c = (atomBody c).handle atomFunction := by
  rw [body_until]
  show Prog.bind _ _ = Prog.bind _ _
  congr 1
  funext r
  rcases r with ⟨v, _ | ⟨f, e⟩⟩ <;> rfl

theorem quiet_callUntil (c : ErrorCall F) : (callUntil c).Every fun q => callsBack q = false := by
  have hsetLast : ∀ e, (setLastUntil e : Prog (errorSig F) (TtVal × Option (F × TtError))).Every
      fun q => callsBack q = false := by
    intro e
    refine ⟨rfl, fun _ => Prog.every_ite trivial ⟨rfl, fun _ => Prog.every_ite trivial ?_⟩⟩
    exact ⟨rfl, fun _ => ⟨rfl, fun _ => ⟨rfl, fun _ => Prog.every_ite trivial trivial⟩⟩⟩
  have hgetLast : (ttErrorGetLast : Prog (errorSig F) TtError).Every fun q => callsBack q = false :=
    ⟨rfl, fun _ => Prog.every_ite trivial ⟨rfl, fun _ => Prog.every_ite trivial
      ⟨rfl, fun _ => ⟨rfl, fun _ => Prog.every_ite trivial trivial⟩⟩⟩⟩
  cases c with
  | setLast error => exact hsetLast error
  | clear => exact hsetLast .success
  | getLast => exact (hgetLast.map _).map _
  | isSuccess => exact ((hgetLast.map _).map _).map _
  | init =>
      refine Prog.Every.map _ (Prog.Every.map (m := ttErrorInit) _ ?_)
      exact ⟨rfl, fun _ => Prog.every_ite trivial ⟨rfl, fun _ => Prog.every_ite trivial
        ⟨rfl, fun _ => ⟨rfl, fun _ => ⟨rfl, fun _ => trivial⟩⟩⟩⟩⟩
  | deinit =>
      refine Prog.Every.map _ (Prog.Every.map (m := ttErrorDeinit) _ ?_)
      exact ⟨rfl, fun _ => Prog.every_ite trivial ⟨rfl, fun _ => Prog.every_ite trivial
        ⟨rfl, fun _ => ⟨rfl, fun _ => ⟨rfl, fun _ => Prog.every_ite trivial trivial⟩⟩⟩⟩⟩
  | registerCallback f =>
      refine Prog.Every.map _ (Prog.Every.map (m := ttErrorRegisterCallback f) _ ?_)
      exact ⟨rfl, fun _ => Prog.every_ite trivial ⟨rfl, fun _ => Prog.every_ite trivial
        ⟨rfl, fun _ => ⟨rfl, fun _ => Prog.every_ite trivial trivial⟩⟩⟩⟩

theorem once_body (c : ErrorCall F) : (errorBody c).Once callsBack := by
  rw [body_until]
  refine Prog.Once.bind (quiet_callUntil c) ?_
  rintro ⟨v, _ | ⟨f, e⟩⟩
  · trivial
  · exact fun _ => trivial

theorem backs : Backs (atomFunction (F := F)) atomPlace atomBack callsBack where
  calls := by
    rintro (c | ⟨f, e⟩) hp
    · cases hp
    · exact ⟨rfl, id, rfl⟩
  quiet := by
    rintro (c | ⟨f, e⟩) hp
    · exact quiet_callUntil c
    · cases hp

/-! ### What a call does alone -/

theorem section_callUntil {c : ErrorCall F} (hc : Using c) :
    (locking F τ).Section (callUntil c) := by
  cases c with
  | init => exact absurd rfl hc.1
  | deinit => exact absurd rfl hc.2
  | setLast e => simp [callUntil, setLastUntil, Locking.Section, Locking.Shape, kind, Phase.next, ans]
  | clear => simp [callUntil, setLastUntil, Locking.Section, Locking.Shape, kind, Phase.next, ans]
  | getLast =>
      simp [callUntil, errorBody, ttErrorGetLast, Locking.Section, Locking.Shape, kind, Phase.next, ans]
  | isSuccess =>
      simp [callUntil, errorBody, ttErrorIsSuccess, ttErrorGetLast, Locking.Section, Locking.Shape,
        kind, Phase.next, ans]
  | registerCallback f =>
      simp [callUntil, errorBody, ttErrorRegisterCallback, Locking.Section, Locking.Shape, kind,
        Phase.next, ans]

section Alone

variable {before : List (ErrorCall F)} {t : τ} {es : List (errorSig F).Done}
  {r : TtVal × Option (F × TtError)} {s : TtErrorContext F × Option τ}

theorem run_setLastUntil {error : TtError} {x : TtErrorContext F} (hx : x.initialized = true)
    (h : (errorSys F τ).Run t (setLastUntil error) (x, none) es r s) :
    r = (.err .success, if error = .success then none else x.callback.map (·, error)) ∧
      s = ({ x with lastError := error }, none) := by
  obtain ⟨last, callback, initialized⟩ := x
  cases hx
  simp only [setLastUntil, run_readInitialized, Bool.not_true, Bool.false_eq_true, if_false,
    run_lock, ne_eq, not_true, run_writeLastError, run_readCallback, run_unlock] at h
  obtain ⟨_, rfl, _, rfl, _, rfl, _, rfl, es₁, rfl, h⟩ := h
  obtain ⟨-, rfl, rfl⟩ := Machine.run_ret_iff.mp h
  exact ⟨rfl, rfl⟩

/-- Alone a call answers what it should after the calls before it, and is remembered. -/
theorem run_callUntil {c : ErrorCall F} (hc : Using c)
    (h : (errorSys F τ).Run t (callUntil c) (⟨lastSet before, lastRegistered before, true⟩, none) es r
      s) : r = answer before c ∧
        s = (⟨lastSet (before ++ [c]), lastRegistered (before ++ [c]), true⟩, none) := by
  rw [← next_answers]
  have hquiet : (∃ v, r = (v, none) ∧ (errorSys F τ).Run t (errorBody c)
      (⟨lastSet before, lastRegistered before, true⟩, none) es v s) →
      ∃ v, r = (v, none) ∧ s = (next c ⟨lastSet before, lastRegistered before, true⟩, none) ∧
        ∃ fs, Answers before c v fs := by
    rintro ⟨v, rfl, hrun⟩
    obtain ⟨hs, -, hans⟩ := run_body hc rfl hrun
    exact ⟨v, rfl, hs, _, hans before rfl rfl⟩
  cases c with
  | init => exact absurd rfl hc.1
  | deinit => exact absurd rfl hc.2
  | setLast e => exact run_setLastUntil rfl h
  | clear => exact run_setLastUntil rfl h
  | getLast | isSuccess | registerCallback f =>
      obtain ⟨v, rfl, rfl, fs, hans⟩ := hquiet ((Machine.run_map_iff errorSys_again).mp h)
      cases hans
      exact ⟨rfl, rfl⟩

end Alone

/-! ### The simulation -/

/-- The whole of the context is protected, and it is what the calls made so far leave. -/
def atomGuard (F τ : Type) : Guard ((atomMachine F τ).marked (ErrorCall F) TtVal) (errorNested F τ)
    (locking F τ) (heardSig F) where
  same _ _ := True
  get s := s
  free before := (⟨lastSet before, lastRegistered before, true⟩, none)
  holder _ := rfl
  stable _ := rfl
  shown := atomHeard
  shown' := linkHeard

/-- Of the calls, those that neither initialise nor deinitialise. -/
def AtomUsing : (atomSig F).Op → Prop
  | .perform c => Using c
  | .invoke _ _ => True

theorem atom_passes {p : ((markSig (ErrorCall F) TtVal).sum (atomSig F)).Op}
    (hp : (∃ m, p = .inl m) ∨ ∃ f e, p = .inr (.invoke f e)) :
    (atomGuard F τ).Passes (Prog.beside atomFunction) p := by
  rcases hp with ⟨m, rfl⟩ | ⟨f, e, rfl⟩
  · refine ⟨.inl m, id, rfl, ?_, fun _ => ⟨rfl, rfl⟩⟩
    rintro x t a c r c' - hexec
    cases hexec
    exact ⟨rfl, (), a, rfl, trivial, rfl⟩
  · refine ⟨.inr (.inl (.invoke f e)), id, rfl, ?_, fun _ => ⟨rfl, rfl⟩⟩
    rintro x t a c r c' - hexec
    cases hexec
    exact ⟨rfl, (), a, rfl, trivial, rfl⟩

theorem atom_enters {c : ErrorCall F} (hc : Using c) :
    (atomGuard F τ).Enters (Prog.beside atomFunction) (fun q => callsBack q = false)
      (.inr (.perform c)) (callUntil c) where
  program := rfl
  comes := quiet_callUntil c
  shape := section_callUntil hc
  unseen _ := rfl
  outcome := by
    intro t before es r s hrun
    obtain ⟨rfl, rfl⟩ := run_callUntil hc hrun
    exact ⟨(), _, rfl, rfl, rfl, fun _ _ => trivial⟩

/-- Each call has one critical section, and is seen only by the callback after it. -/
theorem atom_sections (F τ : Type) : Sections (atomGuard F τ) (Prog.beside atomFunction)
    (Levels.Uses AtomUsing) (fun q => callsBack q = false) where
  step _ hexec := ⟨⟨_, hexec⟩, fun _ _ => trivial⟩
  again _ _ _ := rfl
  unseen := by
    rintro (q | q) r hq
    · cases q with
      | invoke f e => cases hq
      | _ => rfl
    · rfl
  each := by
    rintro (m | ⟨c | ⟨f, e⟩⟩) hp
    · exact .inl (atom_passes (.inl ⟨m, rfl⟩))
    · exact .inr ⟨callUntil c, atom_enters hp⟩
    · exact .inl (atom_passes (.inr ⟨f, e, rfl⟩))

variable {b : MutexBuild}

theorem uses_script {script : ErrorScript F} (h : script.All Using) :
    (errorScript script).Every (Levels.Uses (Levels.Uses (Lock.Use b))) :=
  h.every (fun _ => trivial) fun _ hc => uses_body hc

theorem uses_atomic {script : ErrorScript F} (h : script.All Using) :
    ((script.via atomPlace).prog atomBack atomBody).Every (Levels.Uses AtomUsing) := by
  refine Script.All.every (Q := Levels.Uses AtomUsing) (fun _ => trivial) (fun c hc => ?_) h.via
  refine ⟨hc, ?_⟩
  rintro ⟨v, _ | ⟨f, e⟩⟩
  · trivial
  · exact ⟨trivial, fun _ => trivial⟩

/-! ### The linked library -/

/-- The mutex of this build below scripts. -/
abbrev scriptLevels (b : MutexBuild) (p : Addr) (F τ : Type) :=
  (linkLevels b p F τ).marked (ErrorCall F) TtVal invocation

def scriptImplements (b : MutexBuild) (p : Addr) (F τ : Type) :
    Implements (scriptLevels b p F τ) (Prog.beside (Prog.beside b.mutex))
      (Levels.Uses (Levels.Uses (Lock.Use b))) :=
  Levels.implements _ (Levels.waiting_marked (Levels.waiting_beside (fun x _ _ _ _ _ h => ⟨x, h⟩)
    (fun x _ _ _ _ _ h => ⟨x, h⟩) (fun _ _ => rfl) fun _ _ hp => Lock.waiting hp))

/-- Between the two levels is the library over a mutex that works. -/
theorem scripted_matched [DecidableEq τ] {p : Addr} {code : κ → ErrorScript F}
    (hcode : ∀ c, (code c).All Using) {s₀ : TtErrorContext F × b.State τ}
    (hrel : (linkLevels b p F τ).rel (⟨.success, none, true⟩, none) s₀)
    {pl : Pool ((markSig (ErrorCall F) TtVal).sum ((errorOpSig F).sum b.sig)) τ
      (TtErrorContext F × b.State τ) κ Unit}
    (h : (scripted b τ code).Reach (fun _ _ _ => True) s₀ pl) :
    ∃ pm, ((scriptLevels b p F τ).above fun c => errorScript (code c)).Reach
      (promise linkHeard fun _ _ _ => True) (⟨.success, none, true⟩, none) pm ∧
      (scriptImplements b p F τ).Matches pm pl := by
  have h : ((scriptLevels b p F τ).below fun c => (errorScript (code c)).link
      (Prog.beside b.mutex)).Reach (promise linkHeard fun _ _ _ => True) s₀ pl := h
  exact (scriptImplements b p F τ).refines
    (fun _ _ c _ => Prog.link_eq_handle (Prog.beside b.mutex) (errorScript (code c)))
    (fun _ _ c _ => uses_script (hcode c)) hrel h

/-! ### Completing -/

/-- Only the mutex is waited for. -/
theorem errorSys_can {t : τ} {p : (errorSig F).Op} {s : TtErrorContext F × Option τ}
    (_ : (locking F τ).stable s) (hp : (locking F τ).kind p = .inside ∨
      ((locking F τ).kind p = .acquire ∧ (locking F τ).holder s = none) ∨
      ((locking F τ).kind p = .release ∧ (locking F τ).holder s = some t)) :
    ∃ x r s', (errorSys F τ).exec x t p s = some (r, s') := by
  obtain ⟨x, h⟩ := s
  rcases p with p | _ | _ | (_ | m) | (_ | m) | _ | _
  case inl => cases p <;> exact ⟨(), _, _, rfl⟩
  case inr.lock.some =>
    obtain ⟨-, hfree⟩ | ⟨hp, -⟩ := hp.resolve_left nofun
    · cases hfree
      exact ⟨(), _, _, rfl⟩
    · cases hp
  case inr.unlock.some => exact ⟨(), _, _, rfl⟩
  all_goals simp [kind] at hp

theorem rounds_script {script : ErrorScript F} (h : script.All Using) :
    (((locking F τ).turns errorSys_can).marked (ErrorCall F) TtVal).Rounds false
      (errorScript script) := by
  refine Locking.rounds_prog ?_ (fun _ hc => shape_body hc) h
  rintro (p | p) hp
  · cases p with
    | invoke f e => rfl
    | _ => cases hp
  · cases hp

theorem short_script {script : ErrorScript F} (h : script.All Using) {n : Nat} (hn : script.AtMost n) :
    ((errorScript script).link (Prog.beside b.mutex)).Short (24 * n) := by
  have hbody : ∀ c : ErrorCall F, Using c → (errorBody c).Once callsBack ∧ (errorBody c).Short 6 :=
    fun c hc => ⟨once_body c, short_body hc⟩
  rw [show 24 * n = n * (6 + 2) * 3 by omega]
  refine Prog.Short.link (n := 2) ?_ (uses_script (b := b) h) (h.short hbody hn)
  rintro (p | p) hp
  · exact fun _ => trivial
  · exact (Lock.short_mutex hp).inr

/-! ### A client -/

/-- Sets an error, and in the callback asks for it and clears it; another one sets an error. -/
def clientCode : Bool → ErrorScript Nat
  | false => .call (.registerCallback (some 7)) (fun _ => .done) fun _ =>
      .call (.setLast .busy) (fun _ => .call .getLast (fun _ => .done) fun _ =>
        .call .clear (fun _ => .done) fun _ => .done) fun _ => .done
  | true => .call (.setLast .timeout) (fun _ => .done) fun _ => .done

theorem clientCode_using (c : Bool) : (clientCode c).All Using := by
  cases c with
  | false => exact ⟨⟨nofun, nofun⟩, fun _ => trivial, fun _ => ⟨⟨nofun, nofun⟩, fun _ =>
      ⟨⟨nofun, nofun⟩, fun _ => trivial, fun _ => ⟨⟨nofun, nofun⟩, fun _ => trivial, fun _ => trivial⟩⟩,
      fun _ => trivial⟩⟩
  | true => exact ⟨⟨nofun, nofun⟩, fun _ => trivial, fun _ => trivial⟩

theorem clientCode_atMost (c : Bool) : (clientCode c).AtMost 4 := by
  cases c with
  | false => exact ⟨0, 3, rfl, fun _ => trivial, fun _ => ⟨2, 0, rfl, fun _ =>
      ⟨0, 1, rfl, fun _ => trivial, fun _ => ⟨0, 0, rfl, fun _ => trivial, fun _ => trivial⟩⟩,
      fun _ => trivial⟩⟩
  | true => exact ⟨0, 3, rfl, fun _ => trivial, fun _ => trivial⟩

/-- One client is in its callback, and the other one in its section. -/
def calledBack : List (Label Nat Unit Bool) :=
  .call 0 false :: List.replicate 21 (.prim 0 ()) ++ .call 1 true :: List.replicate 5 (.prim 1 ())

/-- The callback has asked for the error, after the other client has set one. -/
def answered : List (Label Nat Unit Bool) :=
  calledBack ++ List.replicate 7 (.prim 1 ()) ++ .ret 1 :: List.replicate 10 (.prim 0 ())

end Error

open Error

/--
**Every call is one step, whatever the callbacks do.** After a `tt_error_init` that
succeeded, let threads run client code whose callbacks call the error functions again, to
any depth, down to the steps of the mutex that the build has, in any interleaving.  There
is a run of `atomic` with the same calls, returns and callbacks in the same order.  While
the mutex is free, the context is what the calls of that run leave.
-/
theorem ttError_reentrant_refines (b : MutexBuild) {F τ κ : Type} [DecidableEq τ] {t₀ : τ}
    {s s₀ : TtErrorContext F × b.State τ} (hs : s.1.initialized = false)
    (hinit : ((errorMachine F τ b.Choice).sum (b.machine τ)).Returns t₀ (ttErrorInit.link b.mutex) s
      .success s₀)
    {code : κ → ErrorScript F} (hcode : ∀ c, (code c).All Using)
    {pl : Pool ((markSig (ErrorCall F) TtVal).sum ((errorOpSig F).sum b.sig)) τ
      (TtErrorContext F × b.State τ) κ Unit}
    (h : (scripted b τ code).Reach (fun _ _ _ => True) s₀ pl) :
    ∃ pa, (atomic τ code).Reach (fun _ _ _ => True) [] pa ∧
      seen atomHeard pa.view.trace = seen linkHeard pl.view.trace ∧ pa.view.calls = pl.view.calls ∧
      ((∃ p, Lock.StandsFor b p none pl.view.shared.2) →
        pl.view.shared.1 = ⟨lastSet pa.view.shared, lastRegistered pa.view.shared, true⟩) := by
  obtain ⟨p, hrel⟩ := linked_rel hs hinit
  obtain ⟨pm, hpm, hm⟩ := scripted_matched hcode hrel h
  have hstart : (atom_sections F τ).levels.rel [] (⟨.success, none, true⟩, none) :=
    ⟨trivial, rfl, fun _ => rfl⟩
  have hscript : ∀ c, errorScript (code c)
      = (((code c).via atomPlace).prog atomBack atomBody).handle (Prog.beside atomFunction) :=
    fun c => (Script.prog_via backs body_eq (code c)).trans (Prog.link_eq_handle _ _)
  have hpm : ((atom_sections F τ).levels.below fun c => errorScript (code c)).Reach
      (promise linkHeard fun _ _ _ => True) (⟨.success, none, true⟩, none) pm := hpm
  obtain ⟨pa, hpa, ha⟩ := (atom_sections F τ).implements.refines
    (fun _ _ c _ => hscript c) (fun _ _ c _ => uses_atomic (hcode c)) hstart hpm
  refine ⟨pa, hpa, ha.seen.trans hm.seen, ha.calls.trans hm.calls, ?_⟩
  rintro ⟨p', hfree⟩
  have hcontext := ha.rel.2.2 (Lock.standsFor_free hm.rel.2 hfree)
  rw [← hm.rel.1]
  exact congrArg Prod.fst hcontext

/-- A callback is told the error that another thread has set meanwhile. -/
theorem ttError_reentrant_refines_answered :
    ∃ pl, (scripted .linux Nat clientCode).Reach (fun _ _ _ => True)
        (⟨.success, none, true⟩, Lock.fresh) pl ∧ pl.view.calls 0 = some (0, false) ∧
      ∃ pa, (atomic Nat clientCode).Reach (fun _ _ _ => True) [] pa ∧
        .prim 0 0 (.inl (.leave .getLast (.err .timeout) false)) () ∈ seen atomHeard pa.view.trace := by
  have hrun : ((scripted .linux Nat clientCode).run (fun _ _ _ => True) answered
      (Sys.start (⟨.success, none, true⟩, Lock.fresh))).isSome = true := rfl
  have hreach := Sys.Reach.run _ .start (Option.some_get hrun).symm
  obtain ⟨pa, hpa, hseen, -, -⟩ :=
    ttError_reentrant_refines .linux rfl linked_init clientCode_using hreach
  refine ⟨_, hreach, rfl, pa, hpa, ?_⟩
  rw [hseen]
  exact List.mem_of_getLast? rfl

/--
**Scripts complete, whatever their callbacks do.** After a `tt_error_init` that succeeded,
in whatever state the threads are that run client code of at most `n` calls, those of its
callbacks included: without further client code they get on at most `24 * n + 1` times for
each thread, and as long as one of them is not done one of them can.
-/
theorem ttError_reentrant_completes (b : MutexBuild) {F τ κ : Type} [DecidableEq τ] {t₀ : τ}
    {s s₀ : TtErrorContext F × b.State τ} (hs : s.1.initialized = false)
    (hinit : ((errorMachine F τ b.Choice).sum (b.machine τ)).Returns t₀ (ttErrorInit.link b.mutex) s
      .success s₀)
    {n : Nat} {code : κ → ErrorScript F} (hcode : ∀ c, (code c).All Using ∧ (code c).AtMost n)
    {pl : Pool ((markSig (ErrorCall F) TtVal).sum ((errorOpSig F).sum b.sig)) τ
      (TtErrorContext F × b.State τ) κ Unit}
    (h : (scripted b τ code).Reach (fun _ _ _ => True) s₀ pl) :
    (scripted b τ code).Completes (24 * n + 1) pl ∧
      ∃ pl', (scripted b τ code).Calm pl pl' ∧ ∀ t, pl'.view.calls t = none := by
  obtain ⟨p, hrel⟩ := linked_rel hs hinit
  have h : ((scriptLevels b p F τ).below fun c => (errorScript (code c)).link
      (Prog.beside b.mutex)).Reach (promise linkHeard fun _ _ _ => True) s₀ pl := h
  have hcompletes := (scriptImplements b p F τ).completes (f := fun c => errorScript (code c))
    Levels.implements_live
    (fun _ _ c _ => Prog.link_eq_handle (Prog.beside b.mutex) (errorScript (code c)))
    (fun _ _ c _ => uses_script (hcode c).1) (fun _ _ c _ => short_script (hcode c).1 (hcode c).2) hrel
    (fun pa t hpa => Turns.moves (K := ((locking F τ).turns errorSys_can).marked _ _) rfl rfl
      (fun _ _ c _ => rounds_script (hcode c).1) hpa) h
  exact ⟨hcompletes, hcompletes.ends⟩

/-- A callback waits for the mutex that another thread has. -/
theorem ttError_reentrant_completes_waiting :
    ∃ pl, (scripted .linux Nat clientCode).Reach (fun _ _ _ => True)
        (⟨.success, none, true⟩, Lock.fresh) pl ∧
      pl.view.calls 0 = some (0, false) ∧ pl.view.calls 1 = some (1, true) ∧
      (scripted .linux Nat clientCode).step (.prim 0 ()) pl = none ∧
      ∃ pl', (scripted .linux Nat clientCode).Calm pl pl' ∧ ∀ t, pl'.view.calls t = none := by
  have hrun : ((scripted .linux Nat clientCode).run (fun _ _ _ => True)
      (calledBack ++ List.replicate 4 (.prim 0 ()))
      (Sys.start (⟨.success, none, true⟩, Lock.fresh))).isSome = true := rfl
  have hreach := Sys.Reach.run _ .start (Option.some_get hrun).symm
  exact ⟨_, hreach, rfl, rfl, rfl, (ttError_reentrant_completes .linux rfl linked_init
    (fun c => ⟨clientCode_using c, clientCode_atMost c⟩) hreach).2⟩

end TinyTools
