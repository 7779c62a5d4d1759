/-
The error functions keep the invariant, down to the pthread calls.

All of them but `tt_error_init` are `guarded`: check `initialized`, lock, do something,
unlock.  A thread that found `initialized` true knows the object it locks.
`tt_error_init` is one step after the other by a thread that is alone in it.
-/
import TinyTools.Proofs.Error.Initialising

namespace TinyTools

open Interleave

namespace ErrorInit

variable {F τ : Type} [DecidableEq τ]

/-! ### The functions -/

/-- Check, lock, a critical section, unlock: what all functions but `tt_error_init` are. -/
def guarded {α : Type} (inside : Prog (errorSig F) α) (rest : α → Prog (errorSig F) TtError) :
    Prog (errorSig F) TtError :=
  .step (.inl .readInitialized) fun (initialized : Bool) =>
  if !initialized then .ret .notInitialized else
  .step (.inr (.lock (some ()))) fun (result : TtError) =>
  if result ≠ .success then .ret result else
  inside >>= fun a =>
  .step (.inr (.unlock (some ()))) fun (result : TtError) =>
  if result ≠ .success then .ret result else
  rest a

/-- The end of `tt_error_set_last`, past the mutex. -/
def notify (error : TtError) : Option F → Prog (errorSig F) TtError
  | some f =>
      if error ≠ .success then
        .step (.inl (.invoke f error)) fun _ => .ret .success
      else .ret .success
  | none => .ret .success

section Functions

variable {t : τ} {id : Nat} {c : ErrorCall F} {β : Type} {Q : β → Ghost → Prop}

/-- The program `m`, in call `c`, from ghost `g`. -/
abbrev Safe (t : τ) (id : Nat) (c : ErrorCall F) (m : Prog (errorLinuxSig F) β)
    (Q : β → Ghost → Prop) (g : Ghost) : Prop :=
  (outline F τ).Wp (errorLinuxSys F τ).toMachine t id c m Q g

omit [DecidableEq τ] in
theorem never_again (p : (errorLinuxSig F).Op) (r : (errorLinuxSig F).Res p) :
    (errorLinuxSys F τ).again p r = false := by
  cases p <;> rfl

/-- A primitive that leaves alone what ghosts speak of, outside `tt_error_init`. -/
theorem safe_quiet {p : (errorLinuxSig F).Op} {k : (errorLinuxSig F).Res p → Prog _ β} {g : Ghost}
    (hg : g.initial = false) (hc : c ≠ .init)
    (hp : lockFree p = true)
    (hdefined : ∀ s, ∃ x, ((errorLinuxSys F τ).exec x t p s).isSome = true)
    (hk : ∀ x s r s', Knows s t g → (errorLinuxSys F τ).exec x t p s = some (r, s') →
      s'.1.initialized = s.1.initialized ∧ s'.2 = s.2 ∧ Safe t id c (k r) Q g) :
    Safe t id c (.step p k) Q g := by
  refine Outline.Wp.step never_again ?_
  intro v G hb hinv hgt hcall
  subst hgt
  refine ⟨hdefined v.shared, ?_⟩
  intro x r s hexec _
  obtain ⟨hi, hm, hrest⟩ := hk x v.shared r s (hinv.knows t) hexec
  refine ⟨G t, hinv.prim hb hcall (fun u _ => (hinv.knows u).congr hi hm)
    ((hinv.knows t).congr hi hm) ?_ ?_ ?_ ?_ ?_ ?_, hrest⟩
  · intro hs
    rw [hi] at hs
    exact (hinv.live hs).imp fun o ho => ho.congr hi hm
  · intro hs
    rw [hi]
    exact hs
  · exact sectionStep_of_lockFree hp
  · intro h
    rw [hg] at h
    cases h
  · rintro q rfl
    cases hp
  · intro _ h
    exact absurd h hc

/-- Outside `tt_error_init`, the check of `initialized`. -/
theorem safe_readInitialized {k : Bool → Prog (errorLinuxSig F) β} (hc : c ≠ .init)
    (hfalse : Safe t id c (k false) Q .idle) (htrue : ∀ o, Safe t id c (k true) Q (.aware o)) :
    Safe t id c (.step (.inl .readInitialized) k) Q .idle := by
  refine Outline.Wp.step never_again ?_
  intro v G hb hinv hgt hcall
  refine ⟨⟨.ok, rfl⟩, ?_⟩
  intro x r s hexec _
  have hr : r = v.shared.1.initialized ∧ s = v.shared := by
    cases hexec
    exact ⟨rfl, rfl⟩
  obtain ⟨rfl, rfl⟩ := hr
  have hstep : ∀ g, Knows v.shared t g → g.initial = false → g.sect = none →
      Inv (v.prim id t (.inl .readInitialized) v.shared.1.initialized v.shared)
        (Function.update G t g) := by
    intro g hknows hg hsect
    refine hinv.prim hb hcall (fun u _ => hinv.knows u) hknows hinv.live (fun h => h) ?_ ?_ ?_ ?_
    · rw [hgt, hsect]
      rfl
    · intro h
      rw [hg] at h
      cases h
    · intro q hq
      cases hq
    · intro _ h
      exact absurd h hc
  cases hi : v.shared.1.initialized with
  | false =>
      rw [hi] at hstep
      exact ⟨.idle, hstep .idle trivial rfl rfl, hfalse⟩
  | true =>
      obtain ⟨o, ho⟩ := hinv.live hi
      rw [hi] at hstep
      exact ⟨.aware o, hstep (.aware o) ho rfl rfl, htrue o⟩

omit [DecidableEq τ] in
theorem Live.setHolder {s : ErrorState F τ} {o : Addr} (h : Live s o) (n : Option τ) :
    Live (s.1, s.2.setObject o (some (.ready n))) o :=
  ⟨h.initialized, h.lock, h.marked, n, Function.update_self ..⟩

omit [DecidableEq τ] in
/-- Outside its critical section, a thread does not rely on who holds the mutex. -/
theorem Knows.setHolder {s : ErrorState F τ} {o : Addr} (hlive : Live s o) (n : Option τ) {u : τ}
    {g : Ghost} (hg : g.sect = none) (h : Knows s u g) :
    Knows (s.1, s.2.setObject o (some (.ready n))) u g := by
  have hfalse : s.1.initialized ≠ false := by
    rw [hlive.initialized]
    exact Bool.noConfusion
  cases g with
  | idle => trivial
  | aware o' =>
      have ho : o' = o := Live.unique h hlive
      subst ho
      exact hlive.setHolder n
  | inside o' => cases hg
  | starting => exact absurd h hfalse
  | finished => exact h
  | _ => exact absurd h.1 hfalse

/-- What `t` did to the holder of the mutex, nobody else being in a critical section. -/
theorem Inv.setHolder {v : ErrorView F τ} {G : τ → Ghost} (h : Inv v G) {o : Addr}
    (hb : Books v) (hc : v.calls t = some (id, c)) (hlive : Live v.shared o)
    (hothers : ∀ u, u ≠ t → (G u).sect = none) {p : (errorLinuxSig F).Op}
    {r : (errorLinuxSig F).Res p} (n : Option τ) {g : Ghost} (hg : g.initial = false)
    (hself : Knows (v.shared.1, v.shared.2.setObject o (some (.ready n))) t g)
    (hsect : sectionStep t (G t).sect (.prim id t p r : ErrorEvent F τ) = g.sect)
    (hsame : ∀ q, p = .inr (.pthreadMutexUnlock q) → ∃ o, q = some o ∧ (G t).sect = some o)
    (hreset : ¬ Resets (.prim id t p r : ErrorEvent F τ) id) :
    Inv (v.prim id t p r (v.shared.1, v.shared.2.setObject o (some (.ready n))))
      (Function.update G t g) := by
  refine h.prim hb hc ?_ hself (fun _ => ⟨o, hlive.setHolder n⟩) (fun hi => hi) hsect ?_ hsame ?_
  · intro u hu
    exact (h.knows u).setHolder hlive n (hothers u hu)
  · intro hi
    rw [hg] at hi
    cases hi
  · intro hr _
    exact absurd hr hreset

/-- If the object of the mutex is free, nobody is in a critical section. -/
theorem Inv.free {v : ErrorView F τ} {G : τ → Ghost} (h : Inv v G) {o : Addr}
    (hlive : Live v.shared o) (hfree : v.shared.2.object o = some (.ready none)) (u : τ) :
    (G u).sect = none := by
  have hk := h.knows u
  cases hg : G u with
  | inside o' =>
      rw [hg] at hk
      have ho : o' = o := Live.unique hk.1 hlive
      subst ho
      have heq := hk.2.symm.trans hfree
      simp at heq
  | _ => rfl

/-- What lock and unlock do before they come to the pthread function: they find the object. -/
theorem safe_find {g : Ghost} {o : Addr} (hg : g.initial = false) (hc : c ≠ .init)
    (hknows : ∀ s : ErrorState F τ, Knows s t g → Live s o)
    {call : Option Addr → Prog (linuxMutexSig Unit) Bool} {failed : TtError}
    {Q : TtError → Ghost → Prop}
    (hcall : Safe t id c (call (some o)).inr
      (fun ok g' => Q (if ok then .success else failed) g') g) :
    Safe t id c (ttPlatformMutexOn call failed (some ())).inr Q g := by
  refine safe_quiet hg hc rfl
    (fun s => ⟨.ok, rfl⟩) ?_
  intro x s r s' hk hexec
  have hr : r = true ∧ s' = s := by
    cases hexec
    exact ⟨(hknows s hk).marked, rfl⟩
  obtain ⟨rfl, rfl⟩ := hr
  refine ⟨rfl, rfl, ?_⟩
  refine safe_quiet hg hc rfl
    (fun s => ⟨.ok, rfl⟩) ?_
  intro x s r s' hk hexec
  have hr : r = some o ∧ s' = s := by
    cases hexec
    exact ⟨(hknows s hk).lock, rfl⟩
  obtain ⟨rfl, rfl⟩ := hr
  refine ⟨rfl, rfl, ?_⟩
  show Safe t id c (call (some o) >>= fun ok => .ret (if ok then .success else failed)).inr Q g
  rw [Prog.inr_bind]
  exact Outline.Wp.bind hcall

omit [DecidableEq τ] in
theorem exec_inr {x : LinuxChoice} {p : LinuxMutexOp Unit} {s s' : ErrorState F τ} {r : p.Res}
    (h : (errorLinuxSys F τ).exec x t (.inr p) s = some (r, s')) :
    ∃ m, linuxMutexExec x t p s.2 = some (r, m) ∧ s' = (s.1, m) := by
  obtain ⟨⟨r', m⟩, hexec, heq⟩ := Option.map_eq_some_iff.mp h
  cases heq
  exact ⟨m, hexec, rfl⟩

/-- `tt_mutex_lock`, by a thread that found the context initialised. -/
theorem safe_lock {o : Addr} {Q : TtError → Ghost → Prop} (hc : c ≠ .init)
    (hlocked : Q .success (.inside o)) (hfailed : Q .mutexLock (.aware o)) :
    Safe t id c (ttPlatformMutexLock (some ())).inr Q (.aware o) := by
  show Safe t id c (ttPlatformMutexOn (fun p => .step (.pthreadMutexLock p) .ret) .mutexLock
    (some ())).inr Q (.aware o)
  refine safe_find (g := .aware o) rfl hc (fun _ hk => hk) ?_
  refine Outline.Wp.step never_again ?_
  intro v G hb hinv hgt hcall
  have hlive : Live v.shared o := Outline.at_ghost hinv.knows hgt
  obtain ⟨n, hready⟩ := hlive.ready
  refine ⟨⟨.fail, ?_⟩, ?_⟩
  · show ((linuxMutexExec .fail t (.pthreadMutexLock (some o)) v.shared.2).map _).isSome = true
    simp [linuxMutexExec, hready]
  intro x r s hexec _
  obtain ⟨m, hm, rfl⟩ := exec_inr hexec
  rcases linuxMutexExec_lock hready hm with ⟨rfl, rfl, rfl⟩ | ⟨rfl, rfl⟩
  · refine ⟨.inside o, ?_, hlocked⟩
    refine hinv.setHolder hb hcall hlive (fun u _ => hinv.free hlive hready u) (some t) rfl
      ⟨hlive.setHolder _, Function.update_self ..⟩ ?_ ?_ ?_
    · exact if_pos ⟨rfl, rfl⟩
    · intro q hq; cases hq
    · rintro (⟨_, _, he⟩ | ⟨_, _, he⟩) <;> cases he
  · refine ⟨.aware o, ?_, hfailed⟩
    refine hinv.prim hb hcall (fun u _ => hinv.knows u) hlive hinv.live (fun h => h) ?_ ?_ ?_ ?_
    · rw [hgt]
      exact if_neg (fun h => Bool.false_ne_true h.2)
    · intro h; cases h
    · intro q hq; cases hq
    · intro _ h; exact absurd h hc

/-- `tt_mutex_unlock`, at the end of a critical section. -/
theorem safe_unlock {o : Addr} {Q : TtError → Ghost → Prop} (hc : c ≠ .init)
    (hunlocked : Q .success (.aware o)) (hfailed : Q .mutexUnlock (.aware o)) :
    Safe t id c (ttPlatformMutexUnlock (some ())).inr Q (.inside o) := by
  show Safe t id c (ttPlatformMutexOn (fun p => .step (.pthreadMutexUnlock p) .ret) .mutexUnlock
    (some ())).inr Q (.inside o)
  refine safe_find (g := .inside o) rfl hc (fun _ hk => hk.1) ?_
  refine Outline.Wp.step never_again ?_
  intro v G hb hinv hgt hcall
  obtain ⟨hlive, hheld⟩ : Live v.shared o ∧ v.shared.2.object o = some (.ready (some t)) :=
    Outline.at_ghost hinv.knows hgt
  have hothers : ∀ u, u ≠ t → (G u).sect = none := by
    intro u hu
    cases hsect : (G u).sect with
    | none => rfl
    | some o' =>
        refine absurd (hinv.exclusive u t o' o ?_ ?_) hu
        · rw [hinv.sect, hsect]
        · rw [hinv.sect, hgt]
          rfl
  have hsame : ∀ q, (Sum.inr (.pthreadMutexUnlock (some o)) : (errorLinuxSig F).Op) =
      .inr (.pthreadMutexUnlock q) → ∃ o, q = some o ∧ (G t).sect = some o := by
    intro q hq
    cases hq
    exact ⟨o, rfl, by rw [hgt]; rfl⟩
  refine ⟨⟨.fail, ?_⟩, ?_⟩
  · show ((linuxMutexExec .fail t (.pthreadMutexUnlock (some o)) v.shared.2).map _).isSome = true
    simp [linuxMutexExec, hheld]
  intro x r s hexec _
  obtain ⟨m, hm, rfl⟩ := exec_inr hexec
  rcases linuxMutexExec_unlock hheld hm with ⟨rfl, rfl⟩ | ⟨rfl, rfl⟩
  · refine ⟨.aware o, ?_, hunlocked⟩
    refine hinv.setHolder hb hcall hlive hothers none rfl (hlive.setHolder _) ?_ hsame ?_
    · exact if_pos rfl
    · rintro (⟨_, _, he⟩ | ⟨_, _, he⟩) <;> cases he
  · refine ⟨.aware o, ?_, hfailed⟩
    refine hinv.prim hb hcall (fun u _ => hinv.knows u) hlive hinv.live (fun h => h) ?_ ?_ hsame ?_
    · exact if_pos rfl
    · intro h; cases h
    · intro _ h; exact absurd h hc

theorem Ghost.sect_of_initial {g : Ghost} (h : g.initial = true) : g.sect = none := by
  cases g with
  | inside o => cases h
  | _ => rfl

/-- A step of the one thread that initialises, the context not being initialised yet. -/
theorem safe_initial {p : (errorLinuxSig F).Op} {k : (errorLinuxSig F).Res p → Prog _ β} {g : Ghost}
    (hg : g.initial = true)
    (hfalse : ∀ s : ErrorState F τ, Knows s t g → s.1.initialized = false)
    (hp : lockFree p = true)
    (hdefined : ∀ s, Knows s t g → ∃ x, ((errorLinuxSys F τ).exec x t p s).isSome = true)
    (hk : ∀ x s r s', Knows s t g → (errorLinuxSys F τ).exec x t p s = some (r, s') →
      ∃ g', g'.initial = true ∧ Knows s' t g' ∧ (s'.1.initialized = true → ∃ o, Live s' o) ∧
        Safe t id c (k r) Q g') :
    Safe t id c (.step p k) Q g := by
  refine Outline.Wp.step never_again ?_
  intro v G hb hinv hgt hcall
  subst hgt
  have hf := hfalse v.shared (hinv.knows t)
  refine ⟨hdefined v.shared (hinv.knows t), ?_⟩
  intro x r s hexec _
  obtain ⟨g', hg', hknows, hlive, hrest⟩ := hk x v.shared r s (hinv.knows t) hexec
  refine ⟨g', hinv.prim hb hcall ?_ hknows hlive ?_ ?_ ?_ ?_ ?_, hrest⟩
  · intro u hu
    rw [hinv.others_idle hg hf hu]
    trivial
  · intro h
    rw [hf] at h
    cases h
  · rw [sectionStep_of_lockFree hp, Ghost.sect_of_initial hg, Ghost.sect_of_initial hg']
  · intro _
    exact hinv.initialising hcall hg p r
  · rintro q rfl
    cases hp
  · intro _ _
    exact hf

/-- `tt_error_init` looks at `initialized`.  Finding it false, it is the only one: otherwise
this is the race. -/
theorem safe_checkInitialized {k : Bool → Prog (errorLinuxSig F) β} (hc : c = .init)
    (hfalse : Safe t id c (k false) Q .starting) (htrue : ∀ o, Safe t id c (k true) Q (.aware o)) :
    Safe t id c (.step (.inl .readInitialized) k) Q .idle := by
  subst hc
  refine Outline.Wp.step never_again ?_
  intro v G hb hinv hgt hcall
  refine ⟨⟨.ok, rfl⟩, ?_⟩
  intro x r s hexec hstop
  have hr : r = v.shared.1.initialized ∧ s = v.shared := by
    cases hexec
    exact ⟨rfl, rfl⟩
  obtain ⟨rfl, rfl⟩ := hr
  have hstep : ∀ g, Knows v.shared t g → g.sect = none → (g.initial = true →
      (∀ u, u ≠ t → (G u).initial = false) ∧ v.shared.1.initialized = false) →
      Inv (v.prim id t (.inl .readInitialized) v.shared.1.initialized v.shared)
        (Function.update G t g) := by
    intro g hknows hsect hinitial
    refine hinv.prim hb hcall (fun u _ => hinv.knows u) hknows hinv.live (fun h => h) ?_ ?_ ?_ ?_
    · rw [hgt, hsect]
      rfl
    · intro h
      obtain ⟨hothers, hi⟩ := hinitial h
      refine ⟨hothers, rfl, ⟨t, ?_⟩, ⟨t, ?_⟩, ?_⟩
      · exact List.mem_append_left _ (hb.called t id _ hcall)
      · rw [hi]
        exact List.mem_append_right _ (.head _)
      · intro u c' a
        simpa using hb.pending t id _ u c' a hcall
    · intro q hq
      cases hq
    · rintro (⟨_, _, he⟩ | ⟨_, _, he⟩) <;> cases he
  cases hi : v.shared.1.initialized with
  | false =>
      rw [hi] at hstep hstop
      refine ⟨.starting, hstep .starting hi rfl ?_, hfalse⟩
      intro _
      refine ⟨?_, rfl⟩
      intro u hu
      cases hui : (G u).initial with
      | false => rfl
      | true =>
          -- `u` found it false too, and has not returned
          obtain ⟨id', hcall', hinit⟩ := hinv.initial u hui
          refine absurd (At.last ⟨id, t, rfl, hb.called t id _ hcall, id', ?_, hinit⟩) hstop
          intro heq
          subst heq
          exact hu (hb.apart u t id' _ _ hcall' hcall)
  | true =>
      obtain ⟨o, ho⟩ := hinv.live hi
      rw [hi] at hstep
      exact ⟨.aware o, hstep (.aware o) ho rfl (fun h => by cases h), htrue o⟩

/-- A call outside its critical section may return; `tt_error_init` returns success only once
the context is initialised. -/
theorem final_of_knows {a : TtVal} {g : Ghost} (hsect : g.sect = none)
    (hinit : c = .init → a = .err .success →
      ∀ s : ErrorState F τ, Knows s t g → s.1.initialized = true) :
    (outline F τ).Final t id c a g := by
  intro v G hb hinv hgt hcall _
  subst hgt
  refine ⟨.idle, rfl, ?_, hinv.live, ?_, ?_, ?_, ?_, ?_, ?_⟩
  · exact (Function.forall_update_iff _ _).mpr ⟨trivial, fun u _ => hinv.knows u⟩
  · intro u
    rw [View.ret_trace, sectionOf_snoc, hinv.sect u]
    show (G u).sect = _
    by_cases hu : u = t
    · subst hu
      rw [Function.update_self, hsect]
      rfl
    · rw [Function.update_of_ne hu]
  · intro u hu
    by_cases hut : u = t
    · subst hut
      simp [Ghost.initial] at hu
    · rw [Function.update_of_ne hut] at hu
      obtain ⟨id', hcall', hi⟩ := hinv.initial u hu
      refine ⟨id', by simpa [hut] using hcall', hi.snoc ?_⟩
      intro t₃ c₃ a₃ heq
      cases heq
      exact hut (hb.apart u t id _ _ hcall' hcall)
  · intro u₁ u₂ h₁ h₂
    have hne : ∀ u, (Function.update G t .idle u).initial = true → u ≠ t := by
      intro u hu heq
      subst heq
      simp [Ghost.initial] at hu
    rw [Function.update_of_ne (hne u₁ h₁)] at h₁
    rw [Function.update_of_ne (hne u₂ h₂)] at h₂
    exact hinv.unique u₁ u₂ h₁ h₂
  · intro id' u hret
    rcases List.mem_append.mp hret with hold | hnew
    · exact hinv.success id' u hold
    · cases hnew with
      | head => exact hinit rfl rfl v.shared (hinv.knows t)
      | tail _ h => cases h
  · refine hinv.same.snoc ?_
    intro _ _ _ _ he
    cases he
  · refine hinv.noReset.snoc ?_
    rintro _ _ _ _ (⟨_, _, he⟩ | ⟨_, _, he⟩) <;> cases he

/-- `tt_mutex_init`, by the one thread that initialises. -/
theorem safe_mutexInit {Q : TtError → Ghost → Prop} (hmade : ∀ o, Q .success (.marked o))
    (hmemory : Q .memory .starting) (hfailed : Q .mutexInit .starting) :
    Safe t id c (ttPlatformMutexInit (some ())).inr Q .starting := by
  have hnot : ∀ {s : ErrorState F τ} {P : Prop}, s.1.initialized = false →
      s.1.initialized = true → P := by
    intro s P hf ht
    rw [hf] at ht
    cases ht
  refine safe_initial rfl (fun _ h => h) rfl
    (fun s _ => ⟨.fail, rfl⟩) ?_
  intro x s p s' hk hexec
  obtain ⟨m, hm, rfl⟩ := exec_inr hexec
  rcases linuxMutexExec_malloc hm with ⟨a, hnone, rfl, rfl⟩ | ⟨rfl, rfl⟩
  swap
  · exact ⟨.starting, rfl, hk, hnot hk, hmemory⟩
  refine ⟨.allocated a, rfl, ⟨hk, Function.update_self ..⟩, hnot hk, ?_⟩
  refine safe_initial rfl (fun _ h => h.1) rfl ?_ ?_
  · intro s hk
    refine ⟨.ok, ?_⟩
    show ((linuxMutexExec .ok t (.pthreadMutexInit (some a)) s.2).map _).isSome = true
    simp [linuxMutexExec, hk.2]
  intro x s ok s' hk hexec
  obtain ⟨m, hm, rfl⟩ := exec_inr hexec
  rcases linuxMutexExec_init hk.2 hm with ⟨rfl, rfl⟩ | ⟨rfl, rfl⟩
  · refine ⟨.made a, rfl, ⟨hk.1, Function.update_self ..⟩, hnot hk.1, ?_⟩
    refine safe_initial rfl (fun _ h => h.1) rfl
      (fun s _ => ⟨.ok, rfl⟩) ?_
    intro x s _ s' hk hexec
    cases hexec
    refine ⟨.placed a, rfl, ⟨hk.1, hk.2, ?_⟩, hnot hk.1, ?_⟩
    · simp [LinuxMutexes.setMutex]
    refine safe_initial rfl (fun _ h => h.1) rfl
      (fun s _ => ⟨.ok, rfl⟩) ?_
    intro x s _ s' hk hexec
    cases hexec
    refine ⟨.marked a, rfl, ⟨hk.1, hk.2.1, ?_, ?_⟩, hnot hk.1, hmade a⟩
    · simpa [LinuxMutexes.setMutex] using hk.2.2
    · simp [LinuxMutexes.setMutex]
  · refine ⟨.allocated a, rfl, hk, hnot hk.1, ?_⟩
    refine safe_initial rfl (fun _ h => h.1) rfl ?_ ?_
    · intro s hk
      refine ⟨.ok, ?_⟩
      show ((linuxMutexExec .ok t (.free (some a)) s.2).map _).isSome = true
      simp [linuxMutexExec, hk.2]
    intro x s u s' hk hexec
    obtain ⟨m, hm, rfl⟩ := exec_inr hexec
    rw [linuxMutexExec_free hk.2 hm]
    exact ⟨.starting, rfl, hk.1, hnot hk.1, hfailed⟩

/-- A write by the thread that initialises, between `tt_mutex_init` and the last step. -/
theorem safe_fill {o : Addr} {p : ErrorOp F} {k : p.Res → Prog (errorLinuxSig F) β}
    (hp : (∃ e, p = .writeLastError e) ∨ ∃ f, p = .writeCallback f)
    (hk : ∀ r, Safe t id c (k r) Q (.marked o)) :
    Safe t id c (.step (.inl p) k) Q (.marked o) := by
  refine safe_initial rfl (fun _ h => h.1) rfl ?_ ?_
  · intro s _
    rcases hp with ⟨e, rfl⟩ | ⟨f, rfl⟩
    · exact ⟨.ok, rfl⟩
    · exact ⟨.ok, rfl⟩
  intro x s r s' hknows hexec
  have hs : s'.1.initialized = s.1.initialized ∧ s'.2 = s.2 := by
    rcases hp with ⟨e, rfl⟩ | ⟨f, rfl⟩
    · cases hexec
      exact ⟨rfl, rfl⟩
    · cases hexec
      exact ⟨rfl, rfl⟩
  have hk' : Knows s' t (.marked o) := Knows.congr hs.1 hs.2 hknows
  refine ⟨.marked o, rfl, hk', ?_, hk r⟩
  intro hi
  rw [hk'.1] at hi
  cases hi

/-- The body of `tt_error_init`. -/
theorem safe_init : Safe t id .init ((errorLinuxSys F τ).body .init)
    ((outline F τ).Final t id .init) .idle := by
  refine safe_checkInitialized rfl ?_ ?_
  · refine Outline.Wp.bind (safe_mutexInit ?_ ?_ ?_)
    · intro o
      refine safe_fill (Or.inl ⟨_, rfl⟩) fun _ => safe_fill (Or.inr ⟨_, rfl⟩) fun _ => ?_
      refine safe_initial rfl (fun _ h => h.1) rfl
        (fun s _ => ⟨.ok, rfl⟩) ?_
      intro x s r s' hknows hexec
      cases hexec
      refine ⟨.finished, rfl, rfl, ?_, ?_⟩
      · intro _
        exact ⟨o, rfl, hknows.2.2.1, hknows.2.2.2, none, hknows.2.1⟩
      · exact final_of_knows rfl fun _ _ _ h => h
    · exact final_of_knows rfl (by simp)
    · exact final_of_knows rfl (by simp)
  · intro o
    exact final_of_knows rfl fun _ _ _ h => h.initialized

/-- An access to a field other than `initialized`, or a callback, outside `tt_error_init`. -/
theorem safe_access {p : ErrorOp F} {k : p.Res → Prog (errorLinuxSig F) β} {g : Ghost}
    (hg : g.initial = false) (hc : c ≠ .init) (hp : ∀ b, p ≠ .writeInitialized b)
    (hk : ∀ r, Safe t id c (k r) Q g) : Safe t id c (.step (.inl p) k) Q g := by
  refine safe_quiet hg hc rfl ?_ ?_
  · intro s
    refine ⟨.ok, ?_⟩
    cases p <;> rfl
  · intro x s r s' _ hexec
    have hs : s'.1.initialized = s.1.initialized ∧ s'.2 = s.2 := by
      cases p with
      | writeInitialized b => exact absurd rfl (hp b)
      | _ =>
          cases hexec
          exact ⟨rfl, rfl⟩
    exact ⟨hs.1, hs.2, hk r⟩

theorem safe_guarded {α : Type} {inside : Prog (errorSig F) α}
    {rest : α → Prog (errorSig F) TtError} {Q : TtError → Ghost → Prop} (hc : c ≠ .init)
    (hQ : ∀ a g, g.sect = none → Q a g)
    (hinside : ∀ (Q' : α → Ghost → Prop) o, (∀ a, Q' a (.inside o)) →
      Safe t id c (inside.link linuxMutex) Q' (.inside o))
    (hrest : ∀ a o, Safe t id c ((rest a).link linuxMutex) Q (.aware o)) :
    Safe t id c ((guarded inside rest).link linuxMutex) Q .idle := by
  refine safe_readInitialized hc (hQ _ _ rfl) fun o => ?_
  refine Outline.Wp.bind (safe_lock hc ?_ (hQ _ _ rfl))
  show Safe t id c ((inside >>= _).link linuxMutex) Q (.inside o)
  rw [Prog.link_bind]
  refine Outline.Wp.bind (hinside _ o fun a => ?_)
  exact Outline.Wp.bind (safe_unlock hc (hrest a o) (hQ _ _ rfl))

theorem safe_getLast {Q : TtError → Ghost → Prop} (hc : c ≠ .init)
    (hQ : ∀ a g, g.sect = none → Q a g) :
    Safe t id c (ttErrorGetLast.link linuxMutex) Q .idle := by
  show Safe t id c ((guarded (.step (.inl .readLastError) .ret) .ret).link linuxMutex) Q .idle
  refine safe_guarded hc hQ ?_ ?_
  · intro Q' o hQ'
    exact safe_access rfl hc (by simp) hQ'
  · intro error o
    exact hQ error _ rfl

theorem safe_setLast {Q : TtError → Ghost → Prop} (hc : c ≠ .init)
    (hQ : ∀ a g, g.sect = none → Q a g) (error : TtError) :
    Safe t id c ((ttErrorSetLast error).link linuxMutex) Q .idle := by
  show Safe t id c ((guarded
    (.step (.inl (.writeLastError error)) fun _ => .step (.inl .readCallback) .ret)
    fun (callback : Option F) => _).link linuxMutex) Q .idle
  refine safe_guarded hc hQ ?_ ?_
  · intro Q' o hQ'
    exact safe_access rfl hc (by simp) fun _ => safe_access rfl hc (by simp) hQ'
  · intro callback o
    cases callback with
    | none => exact hQ _ _ rfl
    | some f =>
        show Safe t id c ((if error ≠ .success then
            .step (.inl (.invoke f error)) fun _ => .ret .success
          else .ret .success : Prog (errorSig F) TtError).link linuxMutex) Q (.aware o)
        split
        · exact safe_access rfl hc (by simp) fun _ => hQ _ _ rfl
        · exact hQ _ _ rfl

theorem safe_registerCallback {Q : TtError → Ghost → Prop} (hc : c ≠ .init)
    (hQ : ∀ a g, g.sect = none → Q a g) (callback : Option F) :
    Safe t id c ((ttErrorRegisterCallback callback).link linuxMutex) Q .idle := by
  show Safe t id c ((guarded (.step (.inl (.writeCallback callback)) .ret)
    fun _ => .ret .success).link linuxMutex) Q .idle
  refine safe_guarded hc hQ ?_ ?_
  · intro Q' o hQ'
    exact safe_access rfl hc (by simp) hQ'
  · intro _ o
    exact hQ _ _ rfl

/-- Every function but `tt_error_deinit` keeps the invariant. -/
theorem safe_body (hdeinit : c ≠ .deinit) :
    Safe t id c ((errorLinuxSys F τ).body c) ((outline F τ).Final t id c) .idle := by
  by_cases hc : c = .init
  · subst hc
    exact safe_init
  have hfinal : ∀ a g, Ghost.sect g = none → (outline F τ).Final t id c a g := by
    intro a g hg
    exact final_of_knows hg fun h => absurd h hc
  show Safe t id c ((errorBody c).link linuxMutex) _ .idle
  cases c with
  | init => exact absurd rfl hc
  | deinit => exact absurd rfl hdeinit
  | getLast =>
      rw [errorBody, Prog.link_bind]
      exact Outline.Wp.bind (safe_getLast hc fun a g => hfinal (.err a) g)
  | setLast error =>
      rw [errorBody, Prog.link_bind]
      exact Outline.Wp.bind (safe_setLast hc (fun a g => hfinal (.err a) g) error)
  | isSuccess =>
      rw [errorBody, ttErrorIsSuccess, Prog.bind_assoc, Prog.link_bind]
      exact Outline.Wp.bind (safe_getLast hc fun a g => hfinal (.bool _) g)
  | clear =>
      rw [errorBody, Prog.link_bind]
      exact Outline.Wp.bind (safe_setLast hc (fun a g => hfinal (.err a) g) .success)
  | registerCallback callback =>
      rw [errorBody, Prog.link_bind]
      exact Outline.Wp.bind (safe_registerCallback hc (fun a g => hfinal (.err a) g) callback)

end Functions

/-! ### Runs -/

/-- The calls in question: all but `tt_error_deinit`. -/
abbrev NotDeinit (_ : ErrorView F τ) (_ : τ) (c : ErrorCall F) : Prop := c ≠ .deinit

theorem inv_start : ∃ G, Inv (View.start (.zero, .zero) : ErrorView F τ) G ∧
    ∀ t, (outline F τ).idle (G t) := by
  refine ⟨fun _ => .idle, ⟨?_, ?_, ?_, ?_, ?_, ?_, ?_, ?_⟩, fun _ => rfl⟩
  · intro t; trivial
  · intro h; cases h
  · intro t; rfl
  · intro t h; cases h
  · intro t u h; cases h
  · intro id t h; cases h
  · exact Always.nil
  · exact Always.nil

theorem inv_call (v : ErrorView F τ) (G : τ → Ghost) (t : τ) (c : ErrorCall F) (hinv : Inv v G)
    (hnone : v.calls t = none) : Inv (v.call t c) G := by
  refine ⟨hinv.knows, hinv.live, ?_, ?_, hinv.unique, ?_, ?_, ?_⟩
  · intro u
    rw [View.call_trace, sectionOf_snoc, hinv.sect u]
    rfl
  · intro u hu
    obtain ⟨id, hcall, hi⟩ := hinv.initial u hu
    have hut : u ≠ t := by
      intro h
      rw [h, hnone] at hcall
      cases hcall
    exact ⟨id, by simpa [hut] using hcall, hi.snoc (by rintro _ _ _ ⟨⟩)⟩
  · intro id u hret
    exact hinv.success id u (by simpa using hret)
  · refine hinv.same.snoc ?_
    intro _ _ _ _ he
    cases he
  · refine hinv.noReset.snoc ?_
    rintro _ _ _ _ (⟨_, _, he⟩ | ⟨_, _, he⟩) <;> cases he

/-- What `Outline.sound` asks about the start of a call. -/
theorem safe_call (v : ErrorView F τ) (G : τ → Ghost) (t : τ) (c : ErrorCall F) (_ : Books v)
    (hinv : Inv v G) (hnone : v.calls t = none) (hidle : G t = .idle) (hok : NotDeinit v t c)
    (_ : ¬ Raced (v.call t c).trace) :
    ∃ g, Inv (v.call t c) (Function.update G t g) ∧
      Safe t v.next c ((errorLinuxSys F τ).body c) ((outline F τ).Final t v.next c) g := by
  refine ⟨.idle, ?_, safe_body hok⟩
  rw [← hidle, Function.update_eq_self]
  exact inv_call v G t c hinv hnone

/-- Only call `n` found `initialized` false. -/
def onlyFound (n : Nat) : ErrorEvent F τ → Bool
  | .prim id _ (.inl .readInitialized) b => b || id == n
  | _ => true

omit [DecidableEq τ] in
/-- It takes two to race. -/
theorem not_raced {tr : List (ErrorEvent F τ)} {n : Nat} (h : tr.all (onlyFound n) = true) :
    ¬ Raced tr := by
  have hfound : ∀ id t, .prim id t (.inl .readInitialized) false ∈ tr → id = n := by
    intro id t hmem
    simpa [onlyFound] using List.all_eq_true.mp h _ hmem
  rintro ⟨tr₁, e, tr₂, rfl, id, t, rfl, -, id', hne, -, ⟨t', h'⟩, -⟩
  have hid : id = n := hfound id t (List.mem_append_right _ (.head _))
  have hid' : id' = n := hfound id' t' (List.mem_append_left _ h')
  exact hne (hid'.trans hid.symm)

/-- Thread 1 initialises after thread 0 has, and then records an error. -/
def inTurn : List (Label Nat LinuxChoice (ErrorCall Nat)) :=
  List.flatten [
    .call 0 .init :: .prim 0 .ok :: .prim 0 (.addr 10) :: List.replicate 6 (.prim 0 .ok),
    [.ret 0, .call 1 .init, .prim 1 .ok, .ret 1],
    .call 1 (.setLast .busy) :: List.replicate 4 (.prim 1 .ok)]

/-- Two `tt_error_init` that overlap, with threads using the context meanwhile. -/
def overlap : List (Label Nat LinuxChoice (ErrorCall Nat)) :=
  List.flatten [
    -- both initialisers find `initialized` false; the first one completes
    [.call 0 .init, .prim 0 .ok, .call 1 .init, .prim 1 .ok, .prim 0 (.addr 10)],
    List.replicate 6 (.prim 0 .ok), [.ret 0],
    -- thread 2 is inside on the first object when the second replaces it and clears the error
    .call 2 (.setLast .busy) :: List.replicate 4 (.prim 2 .ok),
    .prim 1 (.addr 11) :: List.replicate 4 (.prim 1 .ok),
    -- thread 3 gets inside on the second object, which thread 2 then unlocks
    .call 3 .getLast :: List.replicate 4 (.prim 3 .ok), List.replicate 5 (.prim 2 .ok),
    .call 4 .getLast :: List.replicate 4 (.prim 4 .ok)]

end ErrorInit

open ErrorInit in
/--
**Without a race of initialisers, the error context is protected.**  In every run
from the zero-initialised context in which no `tt_error_init` finds `initialized`
false while another that found it false is still running, at most one thread is in
its critical section, every unlock acts on the object its thread locked, and after a
successful `tt_error_init` none resets the context.
-/
theorem ttErrorInit_exclusive {F τ : Type} [DecidableEq τ]
    {pl : Pool (errorLinuxSig F) τ (ErrorState F τ) (ErrorCall F) TtVal}
    (h : (errorLinuxSys F τ).Reach NotDeinit (.zero, .zero) pl) (hrace : ¬ Raced pl.view.trace) :
    Exclusive pl.view.trace ∧ SameObject pl.view.trace ∧ NoReset pl.view.trace := by
  obtain ⟨G, hinv, -⟩ := (outline F τ).sound inv_start safe_call h hrace
  exact ⟨hinv.exclusive, hinv.same, hinv.noReset⟩

open ErrorInit in
/-- In such a run, what a thread is about to do is defined: it finds the objects it acts on. -/
theorem ttErrorInit_defined {F τ : Type} [DecidableEq τ]
    {pl : Pool (errorLinuxSig F) τ (ErrorState F τ) (ErrorCall F) TtVal}
    (h : (errorLinuxSys F τ).Reach NotDeinit (.zero, .zero) pl) (hrace : ¬ Raced pl.view.trace)
    {t : τ} {id : Nat} {c : ErrorCall F} {p : (errorLinuxSig F).Op}
    {k : (errorLinuxSig F).Res p → Prog (errorLinuxSig F) TtVal}
    (hc : pl.view.calls t = some (id, c)) (hp : pl.prog t = some (.step p k)) :
    ∃ x, ((errorLinuxSys F τ).exec x t p pl.view.shared).isSome = true :=
  (outline F τ).sound_pre inv_start safe_call h hrace hc hp

open ErrorInit in
/-- Initialisation in turn: thread 1 initialises again and then records an error. -/
theorem ttErrorInit_exclusive_in_turn :
    ∃ pl : Pool (errorLinuxSig Nat) Nat (ErrorState Nat Nat) (ErrorCall Nat) TtVal,
      .ret 0 0 .init (.err .success) ∈ pl.view.trace ∧ sectionOf pl.view.trace 1 = some 10 ∧
      Exclusive pl.view.trace ∧ SameObject pl.view.trace ∧ NoReset pl.view.trace := by
  have hrun : ((errorLinuxSys Nat Nat).run NotDeinit inTurn (Sys.start (.zero, .zero))).isSome =
      true := rfl
  have hreach := Sys.Reach.run _ .start (Option.some_get hrun).symm
  exact ⟨_, List.mem_of_getElem? (i := 9) rfl, rfl,
    ttErrorInit_exclusive hreach (not_raced (n := 0) rfl)⟩

open ErrorInit in
/-- **Initialisers that overlap break all of it.** -/
theorem ttErrorInit_overlap :
    ∃ pl : Pool (errorLinuxSig Nat) Nat (ErrorState Nat Nat) (ErrorCall Nat) TtVal,
      (errorLinuxSys Nat Nat).Reach NotDeinit (.zero, .zero) pl ∧
      ¬ Exclusive pl.view.trace ∧ ¬ SameObject pl.view.trace ∧ ¬ NoReset pl.view.trace := by
  have hrun : ((errorLinuxSys Nat Nat).run NotDeinit overlap
      (Sys.start (.zero, .zero))).isSome = true := rfl
  refine ⟨_, Sys.Reach.run _ .start (Option.some_get hrun).symm, ?_, ?_, ?_⟩
  · intro h
    have heq : (3 : Nat) = 4 := h 3 4 11 11 rfl rfl
    cases heq
  · intro h
    obtain ⟨o, ho, hsect⟩ := h.get 31 (Nat.le_of_ble_eq_true rfl) 2 2 (some 11) true rfl
    cases ho
    cases hsect
  · intro h
    exact h.get 21 (Nat.le_of_ble_eq_true rfl) 1 0 1 0 (Or.inl ⟨1, .success, rfl⟩)
      (List.mem_of_getElem? (i := 2) rfl) (List.mem_of_getElem? (i := 11) rfl)

end TinyTools
