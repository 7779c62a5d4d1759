/-
Querying a Linux mutex while others use it.

`tt_mutex_is_locked` has no way to look at a pthread mutex but to try to take it and
to give it back.  For the time in between the mutex is held by a query, and whoever
tries to take it then, a `tt_mutex_trylock` or another query, is told that somebody
holds it.  A `tt_mutex_lock` only waits.

Nobody tries to take it in such a window if and only if whoever found it taken did so
while a lock or a trylock had it.
-/
import TinyTools.Lib.Outline
import TinyTools.Platform.Linux.Mutex

namespace TinyTools

open Interleave

namespace MutexQuery

variable {τ : Type}

abbrev QueryEvent (τ : Type) := Event (linuxMutexSig Unit) τ (MutexCall Unit) TtVal

abbrev QueryView (τ : Type) :=
  View (linuxMutexSig Unit) τ (LinuxMutexes Unit τ) (MutexCall Unit) TtVal

abbrev QueryPool (τ : Type) :=
  Pool (linuxMutexSig Unit) τ (LinuxMutexes Unit τ) (MutexCall Unit) TtVal

/-- Threads calling the mutex functions where pthreads do not fail. -/
def steadySys (τ : Type) :
    Sys (linuxMutexSig Unit) τ Unit (LinuxMutexes Unit τ) (MutexCall Unit) TtVal where
  toMachine := (linuxMutexMachine Unit τ).under fun _ _ => .ok
  body := (linuxMutexSys Unit τ).body

section Steady

variable {t : τ} {s s' : LinuxMutexes Unit τ} {a : Addr} {n : Option τ} {r : Bool}

theorem steady_lock (hready : s.object a = some (.ready n))
    (hexec : linuxMutexExec .ok t (.pthreadMutexLock (some a)) s = some (r, s')) :
    n = none ∧ r = true ∧ s' = s.setObject a (some (.ready (some t))) := by
  simp only [linuxMutexExec, hready] at hexec
  cases n with
  | none =>
      cases hexec
      exact ⟨rfl, rfl, rfl⟩
  | some u => cases hexec

theorem steady_trylock (hready : s.object a = some (.ready n))
    (hexec : linuxMutexExec .ok t (.pthreadMutexTrylock (some a)) s = some (r, s')) :
    (n = none ∧ r = true ∧ s' = s.setObject a (some (.ready (some t)))) ∨
      (n ≠ none ∧ r = false ∧ s' = s) := by
  simp only [linuxMutexExec, hready] at hexec
  cases n with
  | none =>
      cases hexec
      exact Or.inl ⟨rfl, rfl, rfl⟩
  | some u =>
      cases hexec
      exact Or.inr ⟨Option.some_ne_none u, rfl, rfl⟩

theorem steady_unlock (hready : s.object a = some (.ready n))
    (hexec : linuxMutexExec .ok t (.pthreadMutexUnlock (some a)) s = some (r, s')) :
    r = true ∧ s' = s.setObject a (some (.ready none)) := by
  simp only [linuxMutexExec, hready] at hexec
  cases hexec
  exact ⟨rfl, rfl⟩

end Steady

/-- The thread that holds the mutex. -/
def holder (s : LinuxMutexes Unit τ) : Option τ :=
  match (s.mutex ()).lock with
  | some a =>
      match s.object a with
      | some (.ready h) => h
      | _ => none
  | none => none

/-- The mutex is initialised and free. -/
structure Initialised (s : LinuxMutexes Unit τ) : Prop where
  initialized : (s.mutex ()).initialized = true
  ready : ∃ a, (s.mutex ()).lock = some a ∧ s.object a = some (.ready none)

/-- The calls in question; unlock only while holding. -/
def Client (v : QueryView τ) (t : τ) : MutexCall Unit → Prop
  | .lock (some _) | .trylock (some _) | .isLocked (some _) => True
  | .unlock (some _) => holder v.shared = some t
  | _ => False

instance [DecidableEq τ] (v : QueryView τ) (t : τ) (c : MutexCall Unit) :
    Decidable (Client v t c) := by
  unfold Client
  split <;> infer_instance

/-! ### What a trace shows -/

/-- The call that has taken the mutex last and not given it back, with its thread. -/
def owner (tr : List (QueryEvent τ)) : Option (Nat × τ) :=
  tr.foldl (fun o e =>
    match e with
    | .prim id t (.pthreadMutexLock _) true | .prim id t (.pthreadMutexTrylock _) true =>
        some (id, t)
    | .prim _ _ (.pthreadMutexUnlock _) _ => none
    | _ => o) none

def isQuery : MutexCall Unit → Bool
  | .isLocked _ => true
  | _ => false

/-- The mutex has been taken by a call that is no query. -/
def Taken (tr : List (QueryEvent τ)) : Prop :=
  ∃ id t c, owner tr = some (id, t) ∧ .call id t c ∈ tr ∧ isQuery c = false

/-- The mutex is in the hands of a query. -/
def Queried (tr : List (QueryEvent τ)) : Prop :=
  ∃ id t c, owner tr = some (id, t) ∧ .call id t c ∈ tr ∧ isQuery c = true

/-- A trylock, or a query, has tried to take the mutex, with this result. -/
def Tried (e : QueryEvent τ) (r : Bool) : Prop :=
  ∃ id t p, e = .prim id t (.pthreadMutexTrylock p) r

/-- A trylock, or a query, has tried to take the mutex while it was in the hands of a query. -/
def Disturbed (tr : List (QueryEvent τ)) : Prop :=
  At tr fun tr₁ e => (∃ r, Tried e r) ∧ Queried tr₁

@[simp] theorem owner_snoc (tr : List (QueryEvent τ)) (e : QueryEvent τ) :
    owner (tr ++ [e]) =
      match e with
      | .prim id t (.pthreadMutexLock _) true | .prim id t (.pthreadMutexTrylock _) true =>
          some (id, t)
      | .prim _ _ (.pthreadMutexUnlock _) _ => none
      | _ => owner tr := by
  unfold owner
  rw [List.foldl_append, List.foldl_cons, List.foldl_nil]

/-! ### The invariant -/

inductive Ghost : Type
  | idle
  /-- A query that has taken the mutex. -/
  | holding
  /-- An unlock that has not given it back yet. -/
  | releasing

def Knows (v : QueryView τ) (t : τ) : Ghost → Prop
  | .idle => True
  | .holding => ∃ id c, v.calls t = some (id, c) ∧ owner v.trace = some (id, t)
  | .releasing => ∃ id, owner v.trace = some (id, t)

structure Inv (a : Addr) (v : QueryView τ) (G : τ → Ghost) : Prop where
  mutex : v.shared.mutex () = ⟨some a, true⟩
  ready : v.shared.object a = some (.ready ((owner v.trace).map Prod.snd))
  knows : ∀ t, Knows v t (G t)
  query : ∀ id t c, owner v.trace = some (id, t) → .call id t c ∈ v.trace → isQuery c = true →
    G t = .holding
  taker : ∀ id t, owner v.trace = some (id, t) → ∃ c, .call id t c ∈ v.trace
  answers : Always v.trace fun tr₁ e => ∀ r, Tried e r →
    (r = true ∧ owner tr₁ = none) ∨ (r = false ∧ (Taken tr₁ ∨ Queried tr₁))

/-- What the functions do; a query gives back only what it has taken. -/
def Inner (a : Addr) (v : QueryView τ) (t : τ) (p : LinuxMutexOp Unit) : Prop :=
  p = .readInitialized () ∨ p = .readLock () ∨ p = .pthreadMutexLock (some a) ∨
    p = .pthreadMutexTrylock (some a) ∨
    (p = .pthreadMutexUnlock (some a) ∧ ∀ id c, v.calls t = some (id, c) → isQuery c = true →
      owner v.trace = some (id, t))

def outline (a : Addr) (τ : Type) :
    Outline (linuxMutexSig Unit) τ (LinuxMutexes Unit τ) (MutexCall Unit) TtVal Ghost where
  idle g := g = .idle
  inv := Inv a
  pre := Inner a

variable {a : Addr} {v : QueryView τ} {G : τ → Ghost} {t : τ} {id : Nat} {c : MutexCall Unit}

theorem Inv.holder_eq (h : Inv a v G) : holder v.shared = (owner v.trace).map Prod.snd := by
  unfold holder
  rw [h.mutex]
  simp [h.ready]

/-- Whatever call has taken the mutex is a query or not. -/
theorem Inv.taken_or_queried (h : Inv a v G) (howner : owner v.trace ≠ none) :
    Taken v.trace ∨ Queried v.trace := by
  obtain ⟨⟨id, t⟩, ho⟩ := Option.ne_none_iff_exists'.mp howner
  obtain ⟨c, hc⟩ := h.taker id t ho
  cases hq : isQuery c with
  | false => exact Or.inl ⟨id, t, c, ho, hc, hq⟩
  | true => exact Or.inr ⟨id, t, c, ho, hc, hq⟩

section Steps

variable [DecidableEq τ] {p : LinuxMutexOp Unit} {r : p.Res} {g : Ghost}

/-- A primitive that leaves the mutex alone. -/
theorem Inv.quiet (h : Inv a v G)
    (howner : owner (v.trace ++ [.prim id t p r]) = owner v.trace)
    (hanswer : ∀ b, Tried (.prim id t p r : QueryEvent τ) b → b = false ∧ owner v.trace ≠ none) :
    Inv a (v.prim id t p r v.shared) (Function.update G t (G t)) := by
  rw [Function.update_eq_self]
  refine ⟨h.mutex, ?_, ?_, ?_, ?_, ?_⟩
  · rw [View.prim_trace, howner]
    exact h.ready
  · intro u
    have hk := h.knows u
    unfold Knows at hk ⊢
    rw [View.prim_trace, howner]
    exact hk
  · intro id' u c' ho hcall
    rw [View.prim_trace, howner] at ho
    exact h.query id' u c' ho (by simpa using hcall)
  · intro id' u ho
    rw [View.prim_trace, howner] at ho
    obtain ⟨c', hc'⟩ := h.taker id' u ho
    exact ⟨c', List.mem_append_left _ hc'⟩
  · refine h.answers.snoc ?_
    intro b hb
    obtain ⟨hfalse, hne⟩ := hanswer b hb
    exact Or.inr ⟨hfalse, h.taken_or_queried hne⟩

/-- The mutex is taken. -/
theorem Inv.take (h : Inv a v G) (hc : v.calls t = some (id, c)) (hb : Books v)
    (hfree : owner v.trace = none)
    (howner : owner (v.trace ++ [.prim id t p r]) = some (id, t))
    (htry : ∀ b, Tried (.prim id t p r : QueryEvent τ) b → b = true)
    (hg : (isQuery c = true ∧ g = .holding) ∨ (isQuery c = false ∧ g = .idle)) :
    Inv a (v.prim id t p r (v.shared.setObject a (some (.ready (some t)))))
      (Function.update G t g) := by
  have hidle : ∀ u, u ≠ t → G u = .idle := by
    intro u _
    have hk := h.knows u
    cases hgu : G u with
    | idle => rfl
    | holding =>
        rw [hgu] at hk
        obtain ⟨_, _, -, ho⟩ := hk
        rw [hfree] at ho
        cases ho
    | releasing =>
        rw [hgu] at hk
        obtain ⟨_, ho⟩ := hk
        rw [hfree] at ho
        cases ho
  refine ⟨h.mutex, ?_, ?_, ?_, ?_, ?_⟩
  · rw [View.prim_trace, howner]
    simp
  · intro u
    by_cases hu : u = t
    · subst hu
      rw [Function.update_self]
      rcases hg with ⟨-, rfl⟩ | ⟨-, rfl⟩
      · exact ⟨id, c, hc, howner⟩
      · trivial
    · rw [Function.update_of_ne hu, hidle u hu]
      trivial
  · intro id' u c' ho hcall hq
    rw [View.prim_trace, howner] at ho
    cases ho
    have hcall' : .call id t c' ∈ v.trace := by simpa using hcall
    have hcc : c' = c := (hb.once id t t c' c hcall' (hb.called t id c hc)).2
    subst hcc
    rw [Function.update_self]
    rcases hg with ⟨-, rfl⟩ | ⟨hnq, -⟩
    · rfl
    · rw [hq] at hnq
      cases hnq
  · intro id' u ho
    rw [View.prim_trace, howner] at ho
    cases ho
    exact ⟨c, List.mem_append_left _ (hb.called t id c hc)⟩
  · refine h.answers.snoc ?_
    intro b hb'
    exact Or.inl ⟨htry b hb', hfree⟩

/-- The mutex is given back by the one who holds it. -/
theorem Inv.give (h : Inv a v G) {id' : Nat} (hheld : owner v.trace = some (id', t)) {b : Bool} :
    Inv a (v.prim id t (.pthreadMutexUnlock (some a)) b (v.shared.setObject a (some (.ready none))))
      (Function.update G t .idle) := by
  have howner : owner (v.trace ++ [.prim id t (.pthreadMutexUnlock (some a)) b]) = none := by simp
  refine ⟨h.mutex, ?_, ?_, ?_, ?_, ?_⟩
  · rw [View.prim_trace, howner]
    simp
  · refine (Function.forall_update_iff _ _).mpr ⟨trivial, fun u hu => ?_⟩
    have hk := h.knows u
    cases hgu : G u with
    | idle => trivial
    | holding =>
        rw [hgu] at hk
        obtain ⟨_, _, -, ho⟩ := hk
        rw [hheld] at ho
        cases ho
        exact absurd rfl hu
    | releasing =>
        rw [hgu] at hk
        obtain ⟨_, ho⟩ := hk
        rw [hheld] at ho
        cases ho
        exact absurd rfl hu
  · intro id'' u c' ho
    rw [View.prim_trace, howner] at ho
    cases ho
  · intro id'' u ho
    rw [View.prim_trace, howner] at ho
    cases ho
  · refine h.answers.snoc ?_
    rintro b ⟨_, _, _, he⟩
    cases he

end Steps

/-! ### The functions -/

section Functions

variable [DecidableEq τ] {β : Type} {Q : β → Ghost → Prop} {g : Ghost}

/-- The program `m`, in call `c`, from ghost `g`. -/
abbrev Safe (a : Addr) (t : τ) (id : Nat) (c : MutexCall Unit) (m : Prog (linuxMutexSig Unit) β)
    (Q : β → Ghost → Prop) (g : Ghost) : Prop :=
  (outline a τ).Wp (steadySys τ).toMachine t id c m Q g

/-- The functions find the mutex initialised, and its object. -/
theorem safe_find {k : Option Addr → Prog (linuxMutexSig Unit) β} {k' : Prog (linuxMutexSig Unit) β}
    (hk : Safe a t id c (k (some a)) Q g) :
    Safe a t id c (.step (.readInitialized ()) fun (initialized : Bool) =>
      if !initialized then k' else .step (.readLock ()) k) Q g := by
  refine Outline.Wp.step (fun _ _ => rfl) ?_
  intro v G hb hinv hgt hcall
  refine ⟨Or.inl rfl, ?_⟩
  intro x r s hexec _
  obtain ⟨rfl, rfl⟩ : r = true ∧ s = v.shared := by
    cases hexec
    exact ⟨congrArg TtMutex.initialized hinv.mutex, rfl⟩
  refine ⟨G t, hinv.quiet (by simp) ?_, ?_⟩
  · rintro b ⟨_, _, _, he⟩
    cases he
  rw [hgt]
  refine Outline.Wp.step (fun _ _ => rfl) ?_
  intro v G hb hinv hgt hcall
  refine ⟨Or.inr (Or.inl rfl), ?_⟩
  intro x r s hexec _
  obtain ⟨rfl, rfl⟩ : r = some a ∧ s = v.shared := by
    cases hexec
    exact ⟨congrArg TtMutex.lock hinv.mutex, rfl⟩
  refine ⟨G t, hinv.quiet (by simp) ?_, ?_⟩
  · rintro b ⟨_, _, _, he⟩
    cases he
  rw [hgt]
  exact hk

omit [DecidableEq τ] in
theorem Inv.object {o : Option (Nat × τ)} (h : Inv a v G) (ho : owner v.trace = o) :
    v.shared.object a = some (.ready (o.map Prod.snd)) := by
  rw [h.ready, ho]

theorem safe_lock {k : Bool → Prog (linuxMutexSig Unit) β} (hc : isQuery c = false)
    (hk : Safe a t id c (k true) Q .idle) :
    Safe a t id c (.step (.pthreadMutexLock (some a)) k) Q .idle := by
  refine Outline.Wp.step (fun _ _ => rfl) ?_
  intro v G hb hinv hgt hcall
  refine ⟨Or.inr (Or.inr (Or.inl rfl)), ?_⟩
  intro x r s hexec _
  obtain ⟨hfree, rfl, rfl⟩ := steady_lock hinv.ready hexec
  have ho : owner v.trace = none := Option.map_eq_none_iff.mp hfree
  refine ⟨.idle, hinv.take hcall hb ho (by simp) ?_ (Or.inr ⟨hc, rfl⟩), hk⟩
  rintro b ⟨_, _, _, he⟩
  cases he

/-- Trying to take the mutex, in a trylock or in a query. -/
theorem safe_trylock {k : Bool → Prog (linuxMutexSig Unit) β} {g' : Ghost}
    (hg : (isQuery c = true ∧ g' = .holding) ∨ (isQuery c = false ∧ g' = .idle))
    (htaken : Safe a t id c (k true) Q g') (hbusy : Safe a t id c (k false) Q .idle) :
    Safe a t id c (.step (.pthreadMutexTrylock (some a)) k) Q .idle := by
  refine Outline.Wp.step (fun _ _ => rfl) ?_
  intro v G hb hinv hgt hcall
  refine ⟨Or.inr (Or.inr (Or.inr (Or.inl rfl))), ?_⟩
  intro x r s hexec _
  rcases steady_trylock hinv.ready hexec with ⟨hfree, rfl, rfl⟩ | ⟨hheld, rfl, rfl⟩
  · have ho : owner v.trace = none := Option.map_eq_none_iff.mp hfree
    refine ⟨g', hinv.take hcall hb ho (by simp) ?_ hg, htaken⟩
    rintro b ⟨_, _, _, he⟩
    cases he
    rfl
  · refine ⟨G t, hinv.quiet (by simp) ?_, ?_⟩
    · rintro b ⟨_, _, _, he⟩
      cases he
      exact ⟨rfl, fun ho => hheld (Option.map_eq_none_iff.mpr ho)⟩
    · rw [hgt]
      exact hbusy

theorem safe_unlock {k : Bool → Prog (linuxMutexSig Unit) β}
    (hg : g = .holding ∨ (g = .releasing ∧ isQuery c = false))
    (hk : ∀ b, Safe a t id c (k b) Q .idle) :
    Safe a t id c (.step (.pthreadMutexUnlock (some a)) k) Q g := by
  refine Outline.Wp.step (fun _ _ => rfl) ?_
  intro v G hb hinv hgt hcall
  have hself := Outline.at_ghost hinv.knows hgt
  refine ⟨Or.inr (Or.inr (Or.inr (Or.inr ⟨rfl, ?_⟩))), ?_⟩
  · intro id' c' hc' hq
    rw [hcall] at hc'
    cases hc'
    rcases hg with rfl | ⟨-, hnq⟩
    · obtain ⟨id', c', hc', ho⟩ := hself
      rw [hcall] at hc'
      cases hc'
      exact ho
    · rw [hq] at hnq
      cases hnq
  intro x r s hexec _
  obtain ⟨id', ho⟩ : ∃ id', owner v.trace = some (id', t) := by
    rcases hg with rfl | ⟨rfl, -⟩
    · obtain ⟨id', -, -, ho⟩ := hself
      exact ⟨id', ho⟩
    · exact hself
  obtain ⟨rfl, rfl⟩ := steady_unlock (t := t) hinv.ready hexec
  exact ⟨.idle, hinv.give ho, hk true⟩

theorem final_of_idle {x : TtVal} : (outline a τ).Final t id c x .idle := by
  intro v G hb hinv hgt hcall _
  refine ⟨.idle, rfl, hinv.mutex, ?_, ?_, ?_, ?_, ?_⟩
  · rw [View.ret_trace, owner_snoc]
    exact hinv.ready
  · refine (Function.forall_update_iff _ _).mpr ⟨trivial, fun u hu => ?_⟩
    have hk := hinv.knows u
    unfold Knows at hk ⊢
    rw [View.ret_trace, owner_snoc, View.ret_calls, Function.update_of_ne hu]
    exact hk
  · intro id' u c' ho hcall' hq
    rw [View.ret_trace, owner_snoc] at ho
    have hg := hinv.query id' u c' ho (by simpa using hcall') hq
    by_cases hu : u = t
    · subst hu
      rw [hgt] at hg
      cases hg
    · rw [Function.update_of_ne hu]
      exact hg
  · intro id' u ho
    rw [View.ret_trace, owner_snoc] at ho
    obtain ⟨c', hc'⟩ := hinv.taker id' u ho
    exact ⟨c', List.mem_append_left _ hc'⟩
  · refine hinv.answers.snoc ?_
    rintro b ⟨_, _, _, he⟩
    cases he

end Functions

/-! ### Runs -/

section Runs

variable [DecidableEq τ]

/-- What a call starts from. -/
def start : MutexCall Unit → Ghost
  | .unlock _ => .releasing
  | _ => .idle

/-- Lock, unlock and trylock. -/
theorem safe_on {call : Option Addr → Prog (linuxMutexSig Unit) Bool} {failed : TtError}
    {Q : TtError → Ghost → Prop} {g : Ghost}
    (hcall : Safe a t id c (call (some a)) (fun ok => Q (if ok then .success else failed)) g) :
    Safe a t id c (ttPlatformMutexOn call failed (some ())) Q g :=
  safe_find (Outline.Wp.bind hcall)

theorem safe_body (hclient : Client v t c) :
    Safe a t id c ((steadySys τ).body c) ((outline a τ).Final t id c) (start c) := by
  rcases c with (_ | m) | (_ | m) | (_ | m) | (_ | m) | (_ | m) | (_ | m)
  all_goals first
    | exact hclient.elim
    | skip
  · exact Outline.Wp.bind (safe_on (safe_lock rfl final_of_idle))
  · exact Outline.Wp.bind (safe_on (safe_unlock (Or.inr ⟨rfl, rfl⟩) fun _ => final_of_idle))
  · exact Outline.Wp.bind
      (safe_on (safe_trylock (Or.inr ⟨rfl, rfl⟩) final_of_idle final_of_idle))
  · refine Outline.Wp.bind (safe_find (safe_trylock (Or.inl ⟨rfl, rfl⟩) ?_ final_of_idle))
    exact safe_unlock (Or.inl rfl) fun _ => final_of_idle

omit [DecidableEq τ] in
theorem inv_start {s : LinuxMutexes Unit τ} (hs : s.mutex () = ⟨some a, true⟩)
    (hready : s.object a = some (.ready none)) :
    ∃ G, Inv a (View.start s : QueryView τ) G ∧ ∀ t, (outline a τ).idle (G t) := by
  refine ⟨fun _ => .idle, ⟨hs, hready, fun _ => trivial, ?_, ?_, Always.nil⟩, fun _ => rfl⟩
  · intro id t c ho
    cases ho
  · intro id t ho
    cases ho

/-- What `Outline.sound` asks about the start of a call. -/
theorem safe_call (v : QueryView τ) (G : τ → Ghost) (t : τ) (c : MutexCall Unit) (hb : Books v)
    (hinv : Inv a v G) (_ : v.calls t = none) (hidle : G t = .idle) (hok : Client v t c)
    (_ : ¬ (outline a τ).stop (v.call t c).trace) :
    ∃ g, Inv a (v.call t c) (Function.update G t g) ∧
      Safe a t v.next c ((steadySys τ).body c) ((outline a τ).Final t v.next c) g := by
  refine ⟨start c, ⟨hinv.mutex, ?_, ?_, ?_, ?_, ?_⟩, safe_body hok⟩
  · rw [View.call_trace, owner_snoc]
    exact hinv.ready
  · refine (Function.forall_update_iff _ _).mpr ⟨?_, fun u hu => ?_⟩
    · unfold start
      split
      · rename_i m _
        cases m with
        | none => exact hok.elim
        | some m =>
            have hholder : holder v.shared = some t := hok
            rw [hinv.holder_eq] at hholder
            obtain ⟨⟨id, u'⟩, ho, rfl⟩ := Option.map_eq_some_iff.mp hholder
            exact ⟨id, by simpa using ho⟩
      · trivial
    · have hk := hinv.knows u
      unfold Knows at hk ⊢
      rw [View.call_trace, owner_snoc, View.call_calls, Function.update_of_ne hu]
      exact hk
  · intro id u c' ho hcall hq
    rw [View.call_trace, owner_snoc] at ho
    rcases List.mem_append.mp hcall with hold | hnew
    · have hg := hinv.query id u c' ho hold hq
      by_cases hu : u = t
      · subst hu
        rw [hidle] at hg
        cases hg
      · rw [Function.update_of_ne hu]
        exact hg
    · cases List.mem_singleton.mp hnew
      obtain ⟨c'', hc''⟩ := hinv.taker _ _ ho
      exact absurd (hb.called_below _ _ _ hc'') (by omega)
  · intro id u ho
    rw [View.call_trace, owner_snoc] at ho
    obtain ⟨c', hc'⟩ := hinv.taker id u ho
    exact ⟨c', List.mem_append_left _ hc'⟩
  · refine hinv.answers.snoc ?_
    rintro b ⟨_, _, _, he⟩
    cases he

variable {s₀ : LinuxMutexes Unit τ} {pl : QueryPool τ}

theorem reach_inv (hs : s₀.mutex () = ⟨some a, true⟩) (hready : s₀.object a = some (.ready none))
    (h : (steadySys τ).Reach Client s₀ pl) : ∃ G, Inv a pl.view G ∧ ∀ t, (outline a τ).Thread
      (steadySys τ) pl t (G t) :=
  (outline a τ).sound (inv_start hs hready) safe_call h fun hstop => hstop

omit [DecidableEq τ] in
theorem taken_not_queried (hb : Books v) {tr₁ tr₂ : List (QueryEvent τ)} {e : QueryEvent τ}
    (htr : v.trace = tr₁ ++ e :: tr₂) (htaken : Taken tr₁) : ¬ Queried tr₁ := by
  obtain ⟨id, t, c, ho, hc, hnq⟩ := htaken
  rintro ⟨id', t', c', ho', hc', hq⟩
  rw [ho] at ho'
  cases ho'
  have hmem : ∀ c₁, .call id t c₁ ∈ tr₁ → .call id t c₁ ∈ v.trace := by
    intro c₁ h
    rw [htr]
    exact List.mem_append_left _ h
  rw [(hb.once id t t c c' (hmem c hc) (hmem c' hc')).2, hq] at hnq
  cases hnq

omit [DecidableEq τ] in
/-- Whoever finds the mutex taken finds it so through no query, if nobody tries while a query
has it. -/
theorem Inv.taken_iff (h : Inv a v G) (hb : Books v) :
    Always v.trace (fun tr₁ e => Tried e false → Taken tr₁) ↔ ¬ Disturbed v.trace := by
  refine ⟨?_, ?_⟩
  · rintro htaken ⟨tr₁, e, tr₂, htr, ⟨r, he⟩, hq⟩
    rcases h.answers tr₁ e tr₂ htr r he with ⟨-, hnone⟩ | ⟨rfl, -⟩
    · obtain ⟨id, t, c, ho, -⟩ := hq
      rw [hnone] at ho
      cases ho
    · exact taken_not_queried hb htr (htaken tr₁ e tr₂ htr he) hq
  · intro hnot tr₁ e tr₂ htr he
    rcases h.answers tr₁ e tr₂ htr false he with ⟨hfalse, -⟩ | ⟨-, htaken | hq⟩
    · cases hfalse
    · exact htaken
    · exact absurd ⟨tr₁, e, tr₂, htr, ⟨false, he⟩, hq⟩ hnot

end Runs

end MutexQuery

end TinyTools
