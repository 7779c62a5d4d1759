/-
Replacing the error callback while errors are reported.

`tt_error_set_last` copies the callback under the mutex and calls the copy after the
unlock.  A replacement can fall into that gap, so a replaced callback may still be
called after `tt_error_register_callback` has returned; the mutex is not held during
the call on purpose, the callback being foreign code.

What does hold is that nothing but this copy keeps the old callback alive: a call of
`f` after `f` was replaced comes from a `tt_error_set_last` that had copied it before
the replacement was written.
-/
import TinyTools.Proofs.Error.Deinit

namespace TinyTools

open Interleave

namespace ErrorCallback

open ErrorDeinit (ErrorEvent ErrorView NotInit never_again)

variable {F τ : Type}

/-! ### What a trace shows -/

/-- The callback that a call installs. -/
def installs : ErrorCall F → Option (Option F)
  | .registerCallback g => some g
  | .deinit => some none
  | .init | .getLast | .setLast _ | .isSuccess | .clear => none

/-- Some call of `tr` writes `g` to `callback`. -/
def Installed (g : Option F) (tr : List (ErrorEvent F τ)) : Prop :=
  ∃ id u, .prim id u (.inl (.writeCallback g)) () ∈ tr

/-- Call `id` has read `f` from `callback`. -/
def Copied (id : Nat) (f : F) (tr : List (ErrorEvent F τ)) : Prop :=
  ∃ t, .prim id t (.inl .readCallback) (some f) ∈ tr

/-- Whenever call `id` invokes `f` after a call that replaced it has returned success, `f` was
installed again after that call's write, or what came before the write excuses it. -/
def Retired (excused : Nat → F → List (ErrorEvent F τ) → Prop) (tr : List (ErrorEvent F τ)) : Prop :=
  Always tr fun tr₁ e => ∀ id t f x, e = .prim id t (.inl (.invoke f x)) () →
    ∀ id' u c g, .ret id' u c (.err .success) ∈ tr₁ → installs c = some g → g ≠ some f →
    ∃ A B, tr₁ = A ++ .prim id' u (.inl (.writeCallback g)) () :: B ∧
      (Installed (some f) B ∨ excused id f A)

/-! ### The invariant -/

/-- What a call has done to `callback`. -/
inductive Ghost (F : Type) : Type
  | idle
  | copied (f : F)
  | installed (g : Option F)

/-- After any other write of `callback`, `f` was written again, or had been copied by `id`. -/
def Since (id : Nat) (f : F) (tr : List (ErrorEvent F τ)) : Prop :=
  ∀ A id' u g B, tr = A ++ .prim id' u (.inl (.writeCallback g)) () :: B → g ≠ some f →
    Installed (some f) B ∨ Copied id f A

def Knows (v : ErrorView F τ) (t : τ) : Ghost F → Prop
  | .idle => True
  | .copied f => ∃ id c, v.calls t = some (id, c) ∧ Copied id f v.trace ∧ Since id f v.trace
  | .installed g => ∃ id c, v.calls t = some (id, c) ∧
      .prim id t (.inl (.writeCallback g)) () ∈ v.trace

structure Inv (v : ErrorView F τ) (G : τ → Ghost F) : Prop where
  knows : ∀ t, Knows v t (G t)
  /-- After any write of `callback`, what it holds now was written, then or later. -/
  current : ∀ A id u g B, v.trace = A ++ .prim id u (.inl (.writeCallback g)) () :: B →
    g = v.shared.1.callback ∨ Installed v.shared.1.callback B
  written : ∀ id u c g, .ret id u c (.err .success) ∈ v.trace → installs c = some g →
    .prim id u (.inl (.writeCallback g)) () ∈ v.trace
  retired : Retired Copied v.trace

def outline (F τ : Type) :
    Outline (errorSig F) τ (TtErrorContext F × Option τ) (ErrorCall F) TtVal (Ghost F) where
  idle g := g = .idle
  inv := Inv

theorem Installed.snoc {g : Option F} {tr : List (ErrorEvent F τ)} (h : Installed g tr)
    (e : ErrorEvent F τ) : Installed g (tr ++ [e]) := by
  obtain ⟨id, u, h⟩ := h
  exact ⟨id, u, List.mem_append_left _ h⟩

theorem Since.snoc {id : Nat} {f : F} {tr : List (ErrorEvent F τ)} (h : Since id f tr)
    (hcopied : Copied id f tr) (e : ErrorEvent F τ) : Since id f (tr ++ [e]) := by
  intro A id' u g B hsplit hg
  rcases split_snoc hsplit with ⟨rfl, -, -⟩ | ⟨B', rfl, hold⟩
  · exact Or.inr hcopied
  · rcases h A id' u g B' hold hg with hi | hc
    · exact Or.inl (hi.snoc e)
    · exact Or.inr hc

/-! ### One step -/

section Steps

variable {v : ErrorView F τ} {G : τ → Ghost F} {t : τ} {id : Nat} {c : ErrorCall F}
  {p : (errorSig F).Op} {r : (errorSig F).Res p} {s : TtErrorContext F × Option τ} {g : Ghost F}

/-- What a thread knows is about its call and about the past. -/
theorem Knows.mono {v' : ErrorView F τ} {e : ErrorEvent F τ} {u : τ} (hk : Knows v u g)
    (hcalls : v'.calls u = v.calls u) (htrace : v'.trace = v.trace ++ [e]) : Knows v' u g := by
  unfold Knows at hk ⊢
  rw [hcalls, htrace]
  cases g with
  | idle => trivial
  | copied f =>
      obtain ⟨id', c', hc', ⟨t', hcopied⟩, hsince⟩ := hk
      exact ⟨id', c', hc', ⟨t', List.mem_append_left _ hcopied⟩, hsince.snoc ⟨t', hcopied⟩ e⟩
  | installed h =>
      obtain ⟨id', c', hc', hmem⟩ := hk
      exact ⟨id', c', hc', List.mem_append_left _ hmem⟩

variable [DecidableEq τ]

/-- A primitive, with its thread's new ghost. -/
theorem Inv.prim (h : Inv v G) (hself : Knows (v.prim id t p r s) t g)
    (hcurrent : (∃ f, p = .inl (.writeCallback f) ∧ s.1.callback = f) ∨
      (∀ f, p ≠ .inl (.writeCallback f)) ∧ s.1.callback = v.shared.1.callback)
    (hinvoke : ∀ f x, p = .inl (.invoke f x) → Since id f v.trace) :
    Inv (v.prim id t p r s) (Function.update G t g) := by
  refine ⟨?_, ?_, ?_, ?_⟩
  · exact (Function.forall_update_iff _ _).mpr ⟨hself, fun u _ => (h.knows u).mono rfl rfl⟩
  · intro A id' u f B hsplit
    show f = s.1.callback ∨ Installed s.1.callback B
    rcases hcurrent with ⟨f', rfl, hs⟩ | ⟨hp, hs⟩
    · rw [hs]
      rcases split_snoc hsplit with ⟨-, he, -⟩ | ⟨B', rfl, -⟩
      · cases he
        exact Or.inl rfl
      · exact Or.inr ⟨id, t, List.mem_append_right _ (.head _)⟩
    · rw [hs]
      rcases split_snoc hsplit with ⟨-, he, -⟩ | ⟨B', rfl, hold⟩
      · cases he
        exact absurd rfl (hp f)
      · exact (h.current A id' u f B' hold).imp_right fun hi => hi.snoc _
  · intro id' u c' f hret hc'
    exact List.mem_append_left _ (h.written id' u c' f (by simpa using hret) hc')
  · refine h.retired.snoc ?_
    intro id' t' f x he id'' u c' f' hret hc' hne
    cases he
    obtain ⟨A, B, hsplit⟩ := List.append_of_mem (h.written id'' u c' f' hret hc')
    exact ⟨A, B, hsplit, hinvoke f x rfl A id'' u f' B hsplit hne⟩

end Steps

/-! ### The functions -/

section Functions

variable [DecidableEq τ] {t : τ} {id : Nat} {c : ErrorCall F} {β : Type} {Q : β → Ghost F → Prop}

/-- The program `m`, in call `c`, from ghost `g`. -/
abbrev Safe (t : τ) (id : Nat) (c : ErrorCall F) (m : Prog (errorSig F) β)
    (Q : β → Ghost F → Prop) (g : Ghost F) : Prop :=
  (outline F τ).Wp (errorSys F τ).toMachine t id c m Q g

/-- A primitive that leaves `callback` alone and calls nothing. -/
theorem safe_quiet {p : (errorSig F).Op} {k : (errorSig F).Res p → Prog (errorSig F) β}
    {g : Ghost F} (hp : ∀ f, p ≠ .inl (.writeCallback f)) (hp' : ∀ f x, p ≠ .inl (.invoke f x))
    (hk : ∀ x s r s', (errorSys F τ).exec x t p s = some (r, s') →
      s'.1.callback = s.1.callback ∧ Safe t id c (k r) Q g) :
    Safe t id c (.step p k) Q g := by
  refine Outline.Wp.step never_again ?_
  intro v G hb hinv hgt hcall
  refine ⟨trivial, ?_⟩
  intro x r s hexec _
  obtain ⟨hs, hrest⟩ := hk x v.shared r s hexec
  have hself := Outline.at_ghost hinv.knows hgt
  exact ⟨g, hinv.prim (hself.mono rfl rfl) (Or.inr ⟨hp, hs⟩) fun f y he => absurd he (hp' f y), hrest⟩

theorem safe_readInitialized {k : Bool → Prog (errorSig F) β} {g : Ghost F}
    (hk : ∀ b, Safe t id c (k b) Q g) : Safe t id c (.step (.inl .readInitialized) k) Q g := by
  refine safe_quiet (fun _ => nofun) (fun _ _ => nofun) ?_
  intro x s r s' hexec
  cases hexec
  exact ⟨rfl, hk _⟩

/-- Any mutex function. -/
theorem safe_mutex {m : MutexCall Unit} {k : m.Res → Prog (errorSig F) β} {g : Ghost F}
    (hk : ∀ r, Safe t id c (k r) Q g) : Safe t id c (.step (.inr m) k) Q g := by
  refine safe_quiet (fun _ => nofun) (fun _ _ => nofun) ?_
  intro x s r s' hexec
  obtain ⟨⟨r', h⟩, -, heq⟩ := Option.map_eq_some_iff.mp hexec
  cases heq
  exact ⟨rfl, hk _⟩

/-- `callback` is read: it is what was written last. -/
theorem safe_readCallback {k : Option F → Prog (errorSig F) β} (hnone : Safe t id c (k none) Q .idle)
    (hsome : ∀ f, Safe t id c (k (some f)) Q (.copied f)) :
    Safe t id c (.step (.inl .readCallback) k) Q .idle := by
  refine Outline.Wp.step never_again ?_
  intro v G hb hinv hgt hcall
  refine ⟨trivial, ?_⟩
  intro x r s hexec _
  obtain ⟨rfl, rfl⟩ : r = v.shared.1.callback ∧ s = v.shared := by
    cases hexec
    exact ⟨rfl, rfl⟩
  have hstep : ∀ g, Knows (v.prim id t (.inl .readCallback) v.shared.1.callback v.shared) t g →
      Inv (v.prim id t (.inl .readCallback) v.shared.1.callback v.shared)
        (Function.update G t g) :=
    fun g hg => hinv.prim hg (Or.inr ⟨fun _ => nofun, rfl⟩) (fun _ _ => nofun)
  cases hf : v.shared.1.callback with
  | none =>
      rw [hf] at hstep
      exact ⟨.idle, hstep .idle trivial, hnone⟩
  | some f =>
      have hcurrent := hinv.current
      rw [hf] at hstep hcurrent
      refine ⟨.copied f, hstep (.copied f) ⟨id, c, hcall, ⟨t, ?_⟩, ?_⟩, hsome f⟩
      · exact List.mem_append_right _ (.head _)
      · intro A id' u g B hsplit hne
        rcases split_snoc hsplit with ⟨-, he, -⟩ | ⟨B', rfl, hold⟩
        · cases he
        · rcases hcurrent A id' u g B' hold with heq | hi
          · exact absurd heq hne
          · exact Or.inl (hi.snoc _)

theorem safe_writeCallback {f : Option F} {k : Unit → Prog (errorSig F) β}
    (hk : Safe t id c (k ()) Q (.installed f)) :
    Safe t id c (.step (.inl (.writeCallback f)) k) Q .idle := by
  refine Outline.Wp.step never_again ?_
  intro v G hb hinv hgt hcall
  refine ⟨trivial, ?_⟩
  intro x r s hexec _
  cases hexec
  refine ⟨.installed f, hinv.prim ⟨id, c, hcall, ?_⟩ (Or.inl ⟨f, rfl, rfl⟩) (fun _ _ => nofun), hk⟩
  exact List.mem_append_right _ (.head _)

/-- The copy is called. -/
theorem safe_invoke {f : F} {x : TtError} {k : Unit → Prog (errorSig F) β}
    (hk : Safe t id c (k ()) Q .idle) :
    Safe t id c (.step (.inl (.invoke f x)) k) Q (.copied f) := by
  refine Outline.Wp.step never_again ?_
  intro v G hb hinv hgt hcall
  refine ⟨trivial, ?_⟩
  intro y r s hexec _
  cases hexec
  refine ⟨.idle, hinv.prim trivial (Or.inr ⟨fun _ => nofun, rfl⟩) ?_, hk⟩
  intro f' x' he
  cases he
  have hself := Outline.at_ghost hinv.knows hgt
  obtain ⟨id', c', hc', -, hsince⟩ := hself
  rw [hcall] at hc'
  cases hc'
  exact hsince

theorem safe_result {m : MutexCall Unit} {k : Prog (errorSig F) TtError}
    {Q : TtError → Ghost F → Prop} {g : Ghost F} {e : m.Res → TtError}
    (hfail : ∀ e, e ≠ .success → Q e g) (hk : Safe t id c k Q g) :
    Safe t id c (.step (.inr m) fun r => if e r ≠ .success then .ret (e r) else k) Q g := by
  refine safe_mutex fun r => ?_
  by_cases hr : e r = .success
  · rw [if_neg (not_not.mpr hr)]
    exact hk
  · rw [if_pos hr]
    exact hfail _ hr

/-- All functions but `tt_error_init`. -/
theorem safe_guarded {α : Type} (inside : Prog (errorSig F) α)
    (rest : α → Prog (errorSig F) TtError) {Q : TtError → Ghost F → Prop}
    (hfail : ∀ e g, e ≠ .success → Q e g)
    (hinside : Safe t id c inside (fun a g => Safe t id c (rest a) Q g) .idle) :
    Safe t id c (ErrorInit.guarded inside rest) Q .idle := by
  refine safe_readInitialized fun b => ?_
  cases b with
  | false => exact hfail _ _ nofun
  | true =>
      refine safe_result (m := .lock (some ())) (e := fun r => r) (fun e he => hfail e _ he) ?_
      refine Outline.Wp.bind (Outline.Wp.mono ?_ hinside)
      intro a g hrest
      exact safe_result (m := .unlock (some ())) (e := fun r => r) (fun e he => hfail e _ he) hrest

/-- What a function has done when it returns success. -/
def Ends (c : ErrorCall F) (e : TtError) (g : Ghost F) : Prop :=
  e = .success → ∀ f, installs c = some f → g = .installed f

theorem safe_deinit : Safe t id .deinit (ttErrorDeinit (F := F)) (Ends .deinit) .idle := by
  refine safe_guarded (.step (.inl (.writeCallback none)) fun _ =>
    .step (.inl (.writeInitialized false)) .ret) (fun _ => .ret .success) ?_ ?_
  · exact fun e g he h => absurd h he
  · refine safe_writeCallback (safe_quiet (fun _ => nofun) (fun _ _ => nofun) ?_)
    intro x s r s' hexec
    cases hexec
    refine ⟨rfl, ?_⟩
    intro _ f hf
    cases hf
    rfl

theorem safe_getLast (hc : installs c = none) :
    Safe t id c (ttErrorGetLast (F := F)) (Ends c) .idle := by
  refine safe_guarded (.step (.inl .readLastError) .ret) .ret ?_ ?_
  · exact fun e g he h => absurd h he
  · refine safe_quiet (fun _ => nofun) (fun _ _ => nofun) ?_
    intro x s r s' hexec
    cases hexec
    exact ⟨rfl, fun _ f hf => absurd (hc.symm.trans hf) nofun⟩

theorem safe_setLast (hc : installs c = none) (error : TtError) :
    Safe t id c (ttErrorSetLast (F := F) error) (Ends c) .idle := by
  have hend : ∀ e g, Ends c e g := fun e g _ f hf => absurd (hc.symm.trans hf) nofun
  refine safe_guarded (.step (.inl (.writeLastError error)) fun _ =>
    .step (.inl .readCallback) .ret) (ErrorInit.notify error) (fun e g _ => hend e g) ?_
  refine safe_quiet (fun _ => nofun) (fun _ _ => nofun) ?_
  intro x s r s' hexec
  cases hexec
  refine ⟨rfl, safe_readCallback (hend .success .idle) fun f => ?_⟩
  by_cases he : error ≠ .success
  · show Safe t id c (if error ≠ .success then _ else _) (Ends c) (.copied f)
    rw [if_pos he]
    exact safe_invoke (hend .success .idle)
  · show Safe t id c (if error ≠ .success then _ else _) (Ends c) (.copied f)
    rw [if_neg he]
    exact hend .success _

theorem safe_registerCallback (callback : Option F) :
    Safe t id (.registerCallback callback) (ttErrorRegisterCallback callback)
      (Ends (.registerCallback callback)) .idle := by
  refine safe_guarded (.step (.inl (.writeCallback callback)) .ret)
    (fun _ => .ret .success) ?_ ?_
  · exact fun e g he h => absurd h he
  · refine safe_writeCallback ?_
    intro _ f hf
    cases hf
    rfl

theorem final_of_ends {a : TtVal} {g : Ghost F} (h : ∀ e, a = .err e → Ends c e g) :
    (outline F τ).Final t id c a g := by
  intro v G hb hinv hgt hcall _
  refine ⟨.idle, rfl, ?_, ?_, ?_, ?_⟩
  · refine (Function.forall_update_iff _ _).mpr ⟨trivial, fun u hu => ?_⟩
    exact (hinv.knows u).mono (by simp [hu]) rfl
  · intro A id' u f B hsplit
    rcases split_snoc hsplit with ⟨-, he, -⟩ | ⟨B', rfl, hold⟩
    · cases he
    · exact (hinv.current A id' u f B' hold).imp_right fun hi => hi.snoc _
  · intro id' u c' f hret hc'
    rcases List.mem_append.mp hret with hold | hnew
    · exact List.mem_append_left _ (hinv.written id' u c' f hold hc')
    · cases List.mem_singleton.mp hnew
      have hself := hinv.knows t
      rw [hgt, h .success rfl rfl f hc'] at hself
      obtain ⟨id'', c'', hc'', hmem⟩ := hself
      rw [hcall] at hc''
      cases hc''
      exact List.mem_append_left _ hmem
  · exact hinv.retired.snoc fun _ _ _ _ => nofun

end Functions

/-! ### Runs -/

theorem inv_start : ∃ G, Inv (View.start (⟨.success, none, true⟩, none) : ErrorView F τ) G ∧
    ∀ t, (outline F τ).idle (G t) := by
  refine ⟨fun _ => .idle, ⟨fun _ => trivial, ?_, ?_, Always.nil⟩, fun _ => rfl⟩
  · intro A id u g B hsplit
    simp at hsplit
  · intro id u c g hret
    simp at hret

variable [DecidableEq τ]

theorem safe_body {t : τ} {id : Nat} {c : ErrorCall F} (hc : c ≠ .init) :
    Safe t id c ((errorSys F τ).body c) ((outline F τ).Final t id c) .idle := by
  have hfinal : ∀ e g, Ends c e g → (outline F τ).Final t id c (.err e) g := by
    intro e g he
    refine final_of_ends fun e' heq => ?_
    cases heq
    exact he
  cases c with
  | init => exact absurd rfl hc
  | deinit => exact Outline.Wp.bind (Outline.Wp.mono hfinal safe_deinit)
  | getLast => exact Outline.Wp.bind (Outline.Wp.mono hfinal (safe_getLast rfl))
  | setLast error => exact Outline.Wp.bind (Outline.Wp.mono hfinal (safe_setLast rfl error))
  | isSuccess =>
      show Safe t id .isSuccess ((ttErrorGetLast >>= _) >>= _) _ .idle
      rw [Prog.bind_assoc]
      refine Outline.Wp.bind (Outline.Wp.mono ?_ (safe_getLast rfl))
      exact fun e g _ => final_of_ends fun _ => nofun
  | clear => exact Outline.Wp.bind (Outline.Wp.mono hfinal (safe_setLast rfl .success))
  | registerCallback callback =>
      exact Outline.Wp.bind (Outline.Wp.mono hfinal (safe_registerCallback callback))

/-- What `Outline.sound` asks about the start of a call. -/
theorem safe_call (v : ErrorView F τ) (G : τ → Ghost F) (t : τ) (c : ErrorCall F) (_ : Books v)
    (hinv : Inv v G) (_ : v.calls t = none) (_ : G t = .idle) (hok : NotInit v t c)
    (_ : ¬ (outline F τ).stop (v.call t c).trace) :
    ∃ g, Inv (v.call t c) (Function.update G t g) ∧
      Safe t v.next c ((errorSys F τ).body c) ((outline F τ).Final t v.next c) g := by
  refine ⟨.idle, ⟨?_, ?_, ?_, ?_⟩, safe_body hok⟩
  · refine (Function.forall_update_iff _ _).mpr ⟨trivial, fun u hu => ?_⟩
    exact (hinv.knows u).mono (by simp [hu]) rfl
  · intro A id' u f B hsplit
    rcases split_snoc hsplit with ⟨-, he, -⟩ | ⟨B', rfl, hold⟩
    · cases he
    · exact (hinv.current A id' u f B' hold).imp_right fun hi => hi.snoc _
  · intro id' u c' f hret hc'
    exact List.mem_append_left _ (hinv.written id' u c' f (by simpa using hret) hc')
  · exact hinv.retired.snoc fun _ _ _ _ => nofun

/-- Callback 7 is registered and copied, replaced by callback 8, and then called. -/
def replaced : List (Label Nat Unit (ErrorCall Nat)) :=
  List.flatten [
    .call 0 (.registerCallback (some 7)) :: List.replicate 4 (.prim 0 ()),
    .ret 0 :: .call 1 (.setLast .busy) :: List.replicate 5 (.prim 1 ()),
    .call 0 (.registerCallback (some 8)) :: List.replicate 4 (.prim 0 ()),
    [.ret 0, .prim 1 (), .ret 1]]

/-- What is written to `callback`, in order. -/
def written (tr : List (ErrorEvent F τ)) : List (Option F) :=
  tr.filterMap fun
    | .prim _ _ (.inl (.writeCallback g)) _ => some g
    | _ => none

end ErrorCallback

open ErrorCallback in
/--
**A replaced callback is called only by those who copied it before.**  After one
`tt_error_init`, in every run: when a call invokes `f` after a registration of some
other callback, or a deinit, has returned success, then `f` was written again after
that call's write, or the invoking call had read `f` before that write.
-/
theorem ttErrorRegisterCallback_retires {F τ : Type} [DecidableEq τ] {t₀ : τ}
    {s s₀ : TtErrorContext F × Option τ} {es : List (errorSig F).Done}
    (hs : s.1.initialized = false) (hinit : (errorSys F τ).Run t₀ ttErrorInit s es .success s₀)
    {pl : Pool (errorSig F) τ (TtErrorContext F × Option τ) (ErrorCall F) TtVal}
    (h : (errorSys F τ).Reach ErrorDeinit.NotInit s₀ pl) : Retired Copied pl.view.trace := by
  have hs₀ := Error.run_ttErrorInit hs hinit
  subst hs₀
  obtain ⟨G, hinv, -⟩ := (outline F τ).sound inv_start safe_call h fun hstop => hstop
  exact hinv.retired

open ErrorCallback in
/-- Callback 7 is called after its replacement by a thread that had copied it. -/
theorem ttErrorRegisterCallback_retires_replaced :
    ∃ pl : Pool (errorSig Nat) Nat (TtErrorContext Nat × Option Nat) (ErrorCall Nat) TtVal,
      .ret 2 0 (.registerCallback (some 8)) (.err .success) ∈ pl.view.trace ∧
      .ret 1 1 (.setLast .busy) (.err .success) ∈ pl.view.trace ∧ Retired Copied pl.view.trace := by
  have hinit : (errorSys Nat Nat).Run 0 ttErrorInit (.zero, none)
      [⟨.inl .readInitialized, false⟩, ⟨.inr (.init (some ())), .success⟩,
        ⟨.inl (.writeLastError .success), ()⟩, ⟨.inl (.writeCallback none), ()⟩,
        ⟨.inl (.writeInitialized true), ()⟩] .success (⟨.success, none, true⟩, none) :=
    Machine.run_of_eval (List.replicate 5 ()) rfl
  have hrun : ((errorSys Nat Nat).run ErrorDeinit.NotInit replaced
      (Sys.start (⟨.success, none, true⟩, none))).isSome = true := rfl
  have hreach := Sys.Reach.run _ .start (Option.some_get hrun).symm
  exact ⟨_, List.mem_of_getElem? (i := 17) rfl, List.mem_of_getLast? rfl,
    ttErrorRegisterCallback_retires rfl hinit hreach⟩

open ErrorCallback in
/-- **A replaced callback may be called again.**  Nothing excuses the call but the copy. -/
theorem ttErrorRegisterCallback_copied :
    ∃ pl : Pool (errorSig Nat) Nat (TtErrorContext Nat × Option Nat) (ErrorCall Nat) TtVal,
      (errorSys Nat Nat).Reach ErrorDeinit.NotInit (⟨.success, none, true⟩, none) pl ∧
      ¬ Retired (fun _ _ _ => False) pl.view.trace := by
  have hrun : ((errorSys Nat Nat).run ErrorDeinit.NotInit replaced
      (Sys.start (⟨.success, none, true⟩, none))).isSome = true := rfl
  refine ⟨_, Sys.Reach.run _ .start (Option.some_get hrun).symm, ?_⟩
  intro h
  obtain ⟨A, B, hsplit, ⟨id, u, hmem⟩ | hfalse⟩ := h.get 18 (Nat.le_of_ble_eq_true rfl) 1 1 7 .busy
    rfl 2 0 (.registerCallback (some 8)) (some 8) (List.mem_of_getElem? (i := 17) rfl) rfl (by simp)
  · have horder : [some 7, some 8] = written A ++ some 8 :: written B := by
      have hwritten := congrArg written hsplit
      simp only [written, List.filterMap_append, List.filterMap_cons] at hwritten
      exact hwritten
    have hseven : some 7 ∈ written B := List.mem_filterMap.mpr ⟨_, hmem, rfl⟩
    have hnone : written B = [] := by
      have hlength := congrArg List.length horder
      cases hA : written A with
      | nil => simp [hA] at horder
      | cons a l =>
          rw [hA] at hlength
          simp at hlength
          exact List.length_eq_zero_iff.mp (by omega)
    rw [hnone] at hseven
    cases hseven
  · exact hfalse

end TinyTools
