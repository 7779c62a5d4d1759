/-
Deinitialising the error context while it is in use.

`tt_error_deinit` clears `initialized` under the mutex, but the updates look at it
before they lock.  An update that looked before the deinit and locks after it writes
to a context that is no longer initialised, and returns success.

That is the only way it goes wrong.  If `initialized` is never cleared while an update
stands between its check and its lock, an update that has found it true relies on a
fact that nobody can change any more: before the lock the deinit would overtake it,
after the lock it has to wait.
-/
import TinyTools.Proofs.Error
import TinyTools.Proofs.Error.Init

namespace TinyTools

open Interleave

namespace ErrorDeinit

variable {F τ : Type}

abbrev ErrorEvent (F τ : Type) := Event (errorSig F) τ (ErrorCall F) TtVal

abbrev ErrorView (F τ : Type) :=
  View (errorSig F) τ (TtErrorContext F × Option τ) (ErrorCall F) TtVal

/-! ### What a trace shows -/

/-- The calls that change what the context holds. -/
def Updates : ErrorCall F → Prop
  | .setLast _ | .clear | .registerCallback _ => True
  | .init | .deinit | .getLast | .isSuccess => False

/-- A write to `last_error` or `callback` in call `id`. -/
def Writes (e : ErrorEvent F τ) (id : Nat) : Prop :=
  (∃ t x, e = .prim id t (.inl (.writeLastError x)) ()) ∨
    ∃ t f, e = .prim id t (.inl (.writeCallback f)) ()

/-- `initialized`, which is true at the start of the trace. -/
def initialised (tr : List (ErrorEvent F τ)) : Bool :=
  tr.foldl (fun b e =>
    match e with
    | .prim _ _ (.inl (.writeInitialized b')) _ => b'
    | _ => b) true

/-- A `tt_error_deinit` has returned `TT_SUCCESS`. -/
def Deinitialised (tr : List (ErrorEvent F τ)) : Prop :=
  ∃ id t, .ret id t .deinit (.err .success) ∈ tr

/-- Call `id` is an update that has found `initialized` true and not locked the mutex yet. -/
def Pending (tr : List (ErrorEvent F τ)) (id : Nat) : Prop :=
  (∃ t c, .call id t c ∈ tr ∧ Updates c) ∧ (∃ t, .prim id t (.inl .readInitialized) true ∈ tr) ∧
    ∀ t, .prim id t (.inr (.lock (some ()))) .success ∉ tr

/-- `initialized` has been cleared under an update between its check and its lock. -/
def Overtaken (tr : List (ErrorEvent F τ)) : Prop :=
  At tr fun tr₁ e => (∃ id t, e = .prim id t (.inl (.writeInitialized false)) ()) ∧
    ∃ id, Pending tr₁ id

/-- No update is made after deinitialisation. -/
structure Closed (v : ErrorView F τ) : Prop where
  /-- The trace and the state agree on `initialized`. -/
  state : initialised v.trace = v.shared.1.initialized
  /-- The updates write while the context is initialised. -/
  writes : Always v.trace fun tr₁ e => ∀ id t c, Writes e id → .call id t c ∈ tr₁ → Updates c →
    initialised tr₁ = true
  /-- Once a deinit has returned success, `last_error` is not written any more. -/
  lastError : Always v.trace fun tr₁ e => Deinitialised tr₁ →
    ∀ id t x, e ≠ .prim id t (.inl (.writeLastError x)) ()
  callback : Deinitialised v.trace → v.shared.1.callback = none

/-! ### The invariant -/

/-- How far a call has come. -/
inductive Ghost : Type
  | idle
  /-- It has performed no primitive yet. -/
  | fresh
  /-- An update that has found `initialized` true. -/
  | pending
  /-- The mutex is locked; by an update; by a deinit that has cleared the callback; that has cleared
  `initialized`. -/
  | holding
  | inside
  | cleared
  | marked
  /-- A deinit that has unlocked. -/
  | closed

/-- The thread has the mutex. -/
def Ghost.holds : Ghost → Bool
  | .idle | .fresh | .pending | .closed => false
  | .holding | .inside | .cleared | .marked => true

def Knows (v : ErrorView F τ) (t : τ) : Ghost → Prop
  | .idle => True
  | .fresh => ∃ id c, v.calls t = some (id, c) ∧ prims v.trace id = []
  | .pending => v.shared.1.initialized = true ∧
      ∃ id c, v.calls t = some (id, c) ∧ Pending v.trace id
  | .inside => v.shared.1.initialized = true ∧ v.shared.2 = some t
  | .holding => v.shared.2 = some t
  | .cleared => v.shared.2 = some t ∧ v.shared.1.callback = none
  | .marked => v.shared.2 = some t ∧ v.shared.1.initialized = false
  | .closed => v.shared.1.initialized = false

structure Inv (v : ErrorView F τ) (G : τ → Ghost) : Prop extends Closed v where
  knows : ∀ t, Knows v t (G t)
  cleared : v.shared.1.initialized = false → v.shared.1.callback = none
  deinit : Deinitialised v.trace → v.shared.1.initialized = false

def outline (F τ : Type) :
    Outline (errorSig F) τ (TtErrorContext F × Option τ) (ErrorCall F) TtVal Ghost where
  idle g := g = .idle
  inv := Inv
  stop := Overtaken
  stop_snoc _ e h := h.snoc e

@[simp] theorem initialised_snoc (tr : List (ErrorEvent F τ)) (e : ErrorEvent F τ) :
    initialised (tr ++ [e]) =
      match e with
      | .prim _ _ (.inl (.writeInitialized b)) _ => b
      | _ => initialised tr := by
  unfold initialised
  rw [List.foldl_append, List.foldl_cons, List.foldl_nil]

theorem Pending.snoc {tr : List (ErrorEvent F τ)} {e : ErrorEvent F τ} {id : Nat}
    (h : Pending tr id) (he : ∀ t, e ≠ .prim id t (.inr (.lock (some ()))) .success) :
    Pending (tr ++ [e]) id := by
  obtain ⟨⟨t₁, c, h₁, hc⟩, ⟨t₂, h₂⟩, h₃⟩ := h
  refine ⟨⟨t₁, c, List.mem_append_left _ h₁, hc⟩, ⟨t₂, List.mem_append_left _ h₂⟩, ?_⟩
  intro t ht
  rcases List.mem_append.mp ht with hold | hnew
  · exact h₃ t hold
  · exact he t (List.mem_singleton.mp hnew).symm

theorem deinitialised_snoc {tr : List (ErrorEvent F τ)} {e : ErrorEvent F τ}
    (he : ∀ id t, e ≠ .ret id t .deinit (.err .success)) :
    Deinitialised (tr ++ [e]) ↔ Deinitialised tr := by
  refine ⟨?_, ?_⟩
  · rintro ⟨id, t, h⟩
    rcases List.mem_append.mp h with hold | hnew
    · exact ⟨id, t, hold⟩
    · exact absurd (List.mem_singleton.mp hnew).symm (he id t)
  · rintro ⟨id, t, h⟩
    exact ⟨id, t, List.mem_append_left _ h⟩

/-! ### One step -/

section Steps

variable [DecidableEq τ] {v : ErrorView F τ} {G : τ → Ghost} {t : τ} {id : Nat} {c : ErrorCall F}
  {p : (errorSig F).Op} {r : (errorSig F).Res p} {s : TtErrorContext F × Option τ} {g : Ghost}

/-- A primitive and its thread's new ghost, checked against what the others rely on. -/
theorem Inv.prim (h : Inv v G) (hb : Books v) (hc : v.calls t = some (id, c))
    (hothers : ∀ u, u ≠ t → Knows v u (G u) → Knows (v.prim id t p r s) u (G u))
    (hself : Knows (v.prim id t p r s) t g)
    (hstate : initialised (v.prim id t p r s).trace = s.1.initialized)
    (hwrites : Writes (.prim id t p r : ErrorEvent F τ) id → Updates c →
      v.shared.1.initialized = true)
    (hlast : ∀ x, p = .inl (.writeLastError x) → v.shared.1.initialized = true)
    (hmono : v.shared.1.initialized = false → s.1.initialized = false)
    (hcleared : s.1.initialized = false → s.1.callback = none) :
    Inv (v.prim id t p r s) (Function.update G t g) := by
  have hsnoc : Deinitialised (v.prim id t p r s).trace ↔ Deinitialised v.trace :=
    deinitialised_snoc fun _ _ => nofun
  have hdeinit : Deinitialised (v.prim id t p r s).trace → v.shared.1.initialized = false :=
    fun hd => h.deinit (hsnoc.mp hd)
  refine ⟨⟨hstate, ?_, ?_, fun hd => hcleared (hmono (hdeinit hd))⟩, ?_, hcleared,
    fun hd => hmono (hdeinit hd)⟩
  · refine h.writes.snoc ?_
    intro id' t' c' hw hcall hu
    have hid : id' = id := by
      rcases hw with ⟨_, _, he⟩ | ⟨_, _, he⟩
      · cases he; rfl
      · cases he; rfl
    subst hid
    have hcc : c' = c := (hb.once id' t' t c' c hcall (hb.called t id' c hc)).2
    subst hcc
    rw [h.state]
    exact hwrites hw hu
  · refine h.lastError.snoc ?_
    intro hd id' t' x he
    cases he
    have htrue := hlast x rfl
    rw [h.deinit hd] at htrue
    cases htrue
  · exact (Function.forall_update_iff _ _).mpr ⟨hself, fun u hu => hothers u hu (h.knows u)⟩

omit [DecidableEq τ] in
/-- What a thread knows survives another thread's step that leaves `initialized` alone, and the
mutex and the callback if it relies on them. -/
theorem Knows.other (hb : Books v) (hc : v.calls t = some (id, c)) {u : τ} (hu : u ≠ t)
    (hinit : s.1.initialized = v.shared.1.initialized)
    (hheld : g.holds = true → s.2 = v.shared.2 ∧ s.1.callback = v.shared.1.callback)
    (hk : Knows v u g) : Knows (v.prim id t p r s) u g := by
  have happart : ∀ id' c', v.calls u = some (id', c') → id ≠ id' := by
    intro id' c' hc' heq
    subst heq
    exact hu (hb.apart u t id c' c hc' hc)
  cases g with
  | idle => trivial
  | fresh =>
      obtain ⟨id', c', hc', hp⟩ := hk
      refine ⟨id', c', hc', ?_⟩
      rw [View.prim_trace, prims_snoc_of_ne _ (happart id' c' hc')]
      exact hp
  | pending =>
      obtain ⟨hi, id', c', hc', hp⟩ := hk
      refine ⟨hinit.trans hi, id', c', hc', hp.snoc ?_⟩
      intro t' he
      cases he
      exact happart id c' hc' rfl
  | holding => exact (hheld rfl).1.trans hk
  | inside => exact ⟨hinit.trans hk.1, (hheld rfl).1.trans hk.2⟩
  | cleared => exact ⟨(hheld rfl).1.trans hk.1, (hheld rfl).2.trans hk.2⟩
  | marked => exact ⟨(hheld rfl).1.trans hk.1, hinit.trans hk.2⟩
  | closed => exact hinit.trans hk

omit [DecidableEq τ] in
/-- A thread that has the mutex is its holder. -/
theorem Knows.holder {u : τ} (hk : Knows v u g) (hg : g.holds = true) : v.shared.2 = some u := by
  cases g with
  | holding => exact hk
  | inside => exact hk.2
  | cleared | marked => exact hk.1
  | _ => cases hg

omit [DecidableEq τ] in
theorem initialised_prim (h : Inv v G) (hinit : s.1.initialized = v.shared.1.initialized)
    (hwrite : ∀ b, p ≠ .inl (.writeInitialized b)) :
    initialised (v.prim id t p r s).trace = s.1.initialized := by
  rw [View.prim_trace, initialised_snoc, hinit, ← h.state]
  split
  · rename_i heq
    cases heq
    exact absurd rfl (hwrite _)
  · rfl

/-- What a thread knows survives the calls and returns of the others. -/
theorem Knows.call {u : τ} (hu : u ≠ t) (hk : Knows v u g) : Knows (v.call t c) u g := by
  cases g with
  | fresh =>
      obtain ⟨id', c', hc', hp⟩ := hk
      refine ⟨id', c', by simpa [hu] using hc', ?_⟩
      rw [View.call_trace, prims_snoc_call]
      exact hp
  | pending =>
      obtain ⟨hi, id', c', hc', hp⟩ := hk
      exact ⟨hi, id', c', by simpa [hu] using hc', hp.snoc fun _ => nofun⟩
  | _ => exact hk

theorem Knows.ret {u : τ} {a : TtVal} (hu : u ≠ t) (hk : Knows v u g) :
    Knows (v.ret id t c a) u g := by
  cases g with
  | fresh =>
      obtain ⟨id', c', hc', hp⟩ := hk
      refine ⟨id', c', by simpa [hu] using hc', ?_⟩
      rw [View.ret_trace, prims_snoc_ret]
      exact hp
  | pending =>
      obtain ⟨hi, id', c', hc', hp⟩ := hk
      exact ⟨hi, id', c', by simpa [hu] using hc', hp.snoc fun _ => nofun⟩
  | _ => exact hk

/-- A primitive that changes nothing. -/
theorem Inv.quiet (h : Inv v G) (hb : Books v) (hc : v.calls t = some (id, c))
    (hwrite : ∀ b, p ≠ .inl (.writeInitialized b)) (hlast : ∀ x, p ≠ .inl (.writeLastError x))
    (hcallback : ∀ f, p ≠ .inl (.writeCallback f))
    (hself : Knows (v.prim id t p r v.shared) t g) :
    Inv (v.prim id t p r v.shared) (Function.update G t g) := by
  refine h.prim hb hc (fun u hu => Knows.other hb hc hu rfl fun _ => ⟨rfl, rfl⟩) hself
    (initialised_prim h rfl hwrite) ?_ (fun x hx => absurd hx (hlast x)) (fun hi => hi) h.cleared
  rintro (⟨t', x, he⟩ | ⟨t', f, he⟩)
  · cases he
    exact absurd rfl (hlast x)
  · cases he
    exact absurd rfl (hcallback f)

/-- Taking the mutex, which was free. -/
theorem Inv.lock (h : Inv v G) (hb : Books v) (hc : v.calls t = some (id, c))
    (hfree : v.shared.2 = none) {e : TtError}
    (hself : Knows (v.prim id t (.inr (.lock (some ()))) e (v.shared.1, some t)) t g) :
    Inv (v.prim id t (.inr (.lock (some ()))) e (v.shared.1, some t)) (Function.update G t g) := by
  refine h.prim hb hc ?_ hself (initialised_prim h rfl (fun _ => nofun)) ?_ nofun (fun hi => hi)
    h.cleared
  · intro u hu hk
    refine Knows.other hb hc hu rfl ?_ hk
    intro hg
    exact absurd (hfree.symm.trans (hk.holder hg)) nofun
  · rintro (⟨t', x, he⟩ | ⟨t', f, he⟩) <;> cases he

/-- A step of the holder of the mutex that leaves `initialized` alone. -/
theorem Inv.held (h : Inv v G) (hb : Books v) (hc : v.calls t = some (id, c))
    (hheld : v.shared.2 = some t) (hinit : s.1.initialized = v.shared.1.initialized)
    (hwrite : ∀ b, p ≠ .inl (.writeInitialized b))
    (hwrites : Writes (.prim id t p r : ErrorEvent F τ) id → Updates c →
      v.shared.1.initialized = true)
    (hlast : ∀ x, p = .inl (.writeLastError x) → v.shared.1.initialized = true)
    (hcleared : s.1.initialized = false → s.1.callback = none)
    (hself : Knows (v.prim id t p r s) t g) :
    Inv (v.prim id t p r s) (Function.update G t g) := by
  refine h.prim hb hc ?_ hself (initialised_prim h hinit hwrite) hwrites hlast
    (fun hi => hinit.trans hi) hcleared
  intro u hu hk
  refine Knows.other hb hc hu hinit ?_ hk
  intro hg
  have heq : some t = some u := hheld.symm.trans (hk.holder hg)
  exact absurd (Option.some.inj heq).symm hu

end Steps

/-! ### The functions -/

section Functions

variable [DecidableEq τ] {t : τ} {id : Nat} {c : ErrorCall F} {β : Type} {Q : β → Ghost → Prop}

/-- The program `m`, in call `c`, from ghost `g`. -/
abbrev Safe (t : τ) (id : Nat) (c : ErrorCall F) (m : Prog (errorSig F) β) (Q : β → Ghost → Prop)
    (g : Ghost) : Prop :=
  (outline F τ).Wp (errorSys F τ).toMachine t id c m Q g

omit [DecidableEq τ] in
theorem never_again (p : (errorSig F).Op) (r : (errorSig F).Res p) :
    (errorSys F τ).again p r = false := by
  rcases p with p | p
  · rfl
  · rfl

/-- A primitive that changes nothing, and whose answer does not matter. -/
theorem safe_quiet {p : ErrorOp F} {k : p.Res → Prog (errorSig F) β} {g : Ghost}
    (hp : p = .readLastError ∨ p = .readCallback ∨ ∃ f e, p = .invoke f e) (hg : g ≠ .fresh)
    (hk : ∀ r, Safe t id c (k r) Q g) : Safe t id c (.step (.inl p) k) Q g := by
  refine Outline.Wp.step never_again ?_
  intro v G hb hinv hgt hcall
  refine ⟨trivial, ?_⟩
  intro x r s hexec _
  have hs : s = v.shared := by
    rcases hp with rfl | rfl | ⟨f, e, rfl⟩ <;> cases hexec <;> rfl
  subst hs
  refine ⟨g, hinv.quiet hb hcall ?_ ?_ ?_ ?_, hk r⟩
  · rintro b ⟨⟩
    rcases hp with hp | hp | ⟨f, e, hp⟩ <;> cases hp
  · rintro x ⟨⟩
    rcases hp with hp | hp | ⟨f, e, hp⟩ <;> cases hp
  · rintro f ⟨⟩
    rcases hp with hp | hp | ⟨f, e, hp⟩ <;> cases hp
  · have hk := Outline.at_ghost hinv.knows hgt
    cases g with
    | fresh => exact absurd rfl hg
    | pending =>
        obtain ⟨hi, id', c', hc', hp'⟩ := hk
        exact ⟨hi, id', c', hc', hp'.snoc fun _ => nofun⟩
    | _ => exact hk

/-- The check of `initialized`, which every function begins with. -/
theorem safe_check {k : Bool → Prog (errorSig F) β} (hfalse : Safe t id c (k false) Q .idle)
    (htrue : ¬ Updates c → Safe t id c (k true) Q .idle)
    (hpending : Updates c → Safe t id c (k true) Q .pending) :
    Safe t id c (.step (.inl .readInitialized) k) Q .fresh := by
  refine Outline.Wp.step never_again ?_
  intro v G hb hinv hgt hcall
  refine ⟨trivial, ?_⟩
  intro x r s hexec _
  have hr : r = v.shared.1.initialized ∧ s = v.shared := by
    cases hexec
    exact ⟨rfl, rfl⟩
  obtain ⟨rfl, rfl⟩ := hr
  have hfresh : prims v.trace id = [] := by
    have hk := Outline.at_ghost hinv.knows hgt
    obtain ⟨id', c', hc', hp⟩ := hk
    rw [hcall] at hc'
    cases hc'
    exact hp
  have hstep : ∀ g, Knows (v.prim id t (.inl .readInitialized) v.shared.1.initialized v.shared) t g →
      Inv (v.prim id t (.inl .readInitialized) v.shared.1.initialized v.shared)
        (Function.update G t g) :=
    fun g hg => hinv.quiet hb hcall (fun _ => nofun) (fun _ => nofun) (fun _ => nofun) hg
  cases hi : v.shared.1.initialized with
  | false =>
      rw [hi] at hstep
      exact ⟨.idle, hstep .idle trivial, hfalse⟩
  | true =>
      rw [hi] at hstep
      by_cases hu : Updates c
      · refine ⟨.pending, hstep .pending ⟨hi, id, c, hcall, ?_⟩, hpending hu⟩
        refine ⟨⟨t, c, List.mem_append_left _ (hb.called t id c hcall), hu⟩,
          ⟨t, List.mem_append_right _ (.head _)⟩, ?_⟩
        intro t' ht'
        rcases List.mem_append.mp ht' with hold | hnew
        · have hmem := mem_prims hold
          rw [hfresh] at hmem
          exact List.not_mem_nil hmem
        · cases List.mem_singleton.mp hnew
      · exact ⟨.idle, hstep .idle trivial, htrue hu⟩

/-- `tt_mutex_lock`: an update that found `initialized` true still finds it so. -/
theorem safe_lock {k : TtError → Prog (errorSig F) β} {g g' : Ghost}
    (hg : (g = .idle ∧ g' = .holding) ∨ (g = .pending ∧ g' = .inside))
    (hk : Safe t id c (k .success) Q g') : Safe t id c (.step (.inr (.lock (some ()))) k) Q g := by
  refine Outline.Wp.step never_again ?_
  intro v G hb hinv hgt hcall
  refine ⟨trivial, ?_⟩
  intro x r s hexec _
  obtain ⟨hfree, rfl, rfl⟩ : v.shared.2 = none ∧ r = .success ∧ s = (v.shared.1, some t) := by
    obtain ⟨⟨r', h⟩, hlock, heq⟩ := Option.map_eq_some_iff.mp hexec
    cases heq
    cases hh : v.shared.2 with
    | none =>
        rw [hh] at hlock
        cases hlock
        exact ⟨rfl, rfl, rfl⟩
    | some u =>
        rw [hh] at hlock
        cases hlock
  refine ⟨g', hinv.lock hb hcall hfree ?_, hk⟩
  have hself := Outline.at_ghost hinv.knows hgt
  rcases hg with ⟨rfl, rfl⟩ | ⟨rfl, rfl⟩
  · exact rfl
  · exact ⟨hself.1, rfl⟩

/-- `tt_mutex_unlock`. -/
theorem safe_unlock {k : TtError → Prog (errorSig F) β} {g g' : Ghost} (hholds : g.holds = true)
    (hg : g' = .idle ∨ (g = .marked ∧ g' = .closed)) (hk : Safe t id c (k .success) Q g') :
    Safe t id c (.step (.inr (.unlock (some ()))) k) Q g := by
  refine Outline.Wp.step never_again ?_
  intro v G hb hinv hgt hcall
  refine ⟨trivial, ?_⟩
  intro x r s hexec _
  cases hexec
  have hself := Outline.at_ghost hinv.knows hgt
  refine ⟨g', hinv.held hb hcall (hself.holder hholds) rfl (fun _ => nofun) ?_ nofun hinv.cleared
    ?_, hk⟩
  · rintro (⟨t', x, he⟩ | ⟨t', f, he⟩) <;> cases he
  · rcases hg with rfl | ⟨rfl, rfl⟩
    · trivial
    · exact hself.2

/-- A write of `last_error` by an update. -/
theorem safe_writeLastError {x : TtError} {k : Unit → Prog (errorSig F) β}
    (hk : Safe t id c (k ()) Q .inside) :
    Safe t id c (.step (.inl (.writeLastError x)) k) Q .inside := by
  refine Outline.Wp.step never_again ?_
  intro v G hb hinv hgt hcall
  refine ⟨trivial, ?_⟩
  intro _ r s hexec _
  cases hexec
  have hself := Outline.at_ghost hinv.knows hgt
  exact ⟨.inside, hinv.held hb hcall hself.2 rfl (fun _ => nofun) (fun _ _ => hself.1)
    (fun _ _ => hself.1) hinv.cleared hself, hk⟩

/-- A write of `callback`, by an update or by a deinit. -/
theorem safe_writeCallback {f : Option F} {k : Unit → Prog (errorSig F) β} {g g' : Ghost}
    (hg : (g = .inside ∧ g' = .inside) ∨
      (g = .holding ∧ g' = .cleared ∧ f = none ∧ ¬ Updates c))
    (hk : Safe t id c (k ()) Q g') : Safe t id c (.step (.inl (.writeCallback f)) k) Q g := by
  refine Outline.Wp.step never_again ?_
  intro v G hb hinv hgt hcall
  refine ⟨trivial, ?_⟩
  intro _ r s hexec _
  cases hexec
  have hself := Outline.at_ghost hinv.knows hgt
  rcases hg with ⟨rfl, rfl⟩ | ⟨rfl, rfl, rfl, hu⟩
  · refine ⟨.inside, hinv.held hb hcall hself.2 rfl (fun _ => nofun) (fun _ _ => hself.1) nofun ?_
      hself, hk⟩
    intro hi
    have htrue : v.shared.1.initialized = true := hself.1
    rw [show v.shared.1.initialized = false from hi] at htrue
    cases htrue
  · exact ⟨.cleared, hinv.held hb hcall hself rfl (fun _ => nofun) (fun _ h => absurd h hu) nofun
      (fun _ => rfl) ⟨hself, rfl⟩, hk⟩

/-- `tt_error_deinit` clears `initialized`: no update is between its check and its lock. -/
theorem safe_mark {k : Unit → Prog (errorSig F) β} (hk : Safe t id c (k ()) Q .marked) :
    Safe t id c (.step (.inl (.writeInitialized false)) k) Q .cleared := by
  refine Outline.Wp.step never_again ?_
  intro v G hb hinv hgt hcall
  refine ⟨trivial, ?_⟩
  intro _ r s hexec hstop
  cases hexec
  have hself := Outline.at_ghost hinv.knows hgt
  refine ⟨.marked, hinv.prim hb hcall ?_ ⟨hself.1, rfl⟩ ?_ ?_ nofun (fun _ => rfl)
    (fun _ => hself.2), hk⟩
  · intro u hu hku
    by_cases hholds : (G u).holds = true
    · have heq : some t = some u := hself.1.symm.trans (hku.holder hholds)
      exact absurd (Option.some.inj heq).symm hu
    cases hgu : G u with
    | idle => trivial
    | fresh =>
        rw [hgu] at hku
        obtain ⟨id', c', hc', hp⟩ := hku
        refine ⟨id', c', hc', ?_⟩
        have hne : id ≠ id' := by
          intro heq
          subst heq
          exact hu (hb.apart u t id c' c hc' hcall)
        rw [View.prim_trace, prims_snoc_of_ne _ hne]
        exact hp
    | pending =>
        rw [hgu] at hku
        obtain ⟨-, id', -, -, hp⟩ := hku
        exact absurd (At.last ⟨⟨id, t, rfl⟩, id', hp⟩) hstop
    | closed => rfl
    | _ =>
        rw [hgu] at hholds
        exact absurd rfl hholds
  · rw [View.prim_trace, initialised_snoc]
  · rintro (⟨t', x, he⟩ | ⟨t', f, he⟩) <;> cases he

/-- All functions but `tt_error_init`: `g₁` is what the critical section starts from. -/
theorem safe_guarded {α : Type} (inside : Prog (errorSig F) α)
    (rest : α → Prog (errorSig F) TtError) {Q : TtError → Ghost → Prop} {g₁ : Ghost}
    (hg : (Updates c ∧ g₁ = .inside) ∨ (¬ Updates c ∧ g₁ = .holding))
    (hearly : Q .notInitialized .idle)
    (hinside : Safe t id c inside (fun a g => g.holds = true ∧
      ∃ g', (g' = .idle ∨ (g = .marked ∧ g' = .closed)) ∧ Safe t id c (rest a) Q g') g₁) :
    Safe t id c (ErrorInit.guarded inside rest) Q .fresh := by
  have hsection : Safe t id c (inside >>= fun a =>
      .step (.inr (.unlock (some ()))) fun (result : TtError) =>
      if result ≠ .success then .ret result else rest a) Q g₁ := by
    refine Outline.Wp.bind (Outline.Wp.mono ?_ hinside)
    rintro a g ⟨hholds, g', hg', hrest⟩
    exact safe_unlock hholds hg' hrest
  refine safe_check hearly ?_ ?_
  · intro hu
    rcases hg with ⟨hu', -⟩ | ⟨-, rfl⟩
    · exact absurd hu' hu
    · exact safe_lock (Or.inl ⟨rfl, rfl⟩) hsection
  · intro hu
    rcases hg with ⟨-, rfl⟩ | ⟨hu', -⟩
    · exact safe_lock (Or.inr ⟨rfl, rfl⟩) hsection
    · exact absurd hu hu'

theorem safe_deinit {Q : TtError → Ghost → Prop} (hearly : Q .notInitialized .idle)
    (hclosed : Q .success .closed) : Safe t id .deinit (ttErrorDeinit (F := F)) Q .fresh := by
  refine safe_guarded (.step (.inl (.writeCallback none)) fun _ =>
    .step (.inl (.writeInitialized false)) .ret) (fun _ => .ret .success)
    (Or.inr ⟨nofun, rfl⟩) hearly ?_
  refine safe_writeCallback (Or.inr ⟨rfl, rfl, rfl, nofun⟩) (safe_mark ?_)
  exact ⟨rfl, .closed, Or.inr ⟨rfl, rfl⟩, hclosed⟩

theorem safe_getLast {Q : TtError → Ghost → Prop} (hc : ¬ Updates c) (hQ : ∀ e, Q e .idle) :
    Safe t id c (ttErrorGetLast (F := F)) Q .fresh := by
  refine safe_guarded (.step (.inl .readLastError) .ret) .ret
    (Or.inr ⟨hc, rfl⟩) (hQ _) ?_
  refine safe_quiet (Or.inl rfl) nofun fun error => ?_
  exact ⟨rfl, .idle, Or.inl rfl, hQ error⟩

theorem safe_setLast {Q : TtError → Ghost → Prop} (hc : Updates c) (hQ : ∀ e, Q e .idle)
    (error : TtError) : Safe t id c (ttErrorSetLast (F := F) error) Q .fresh := by
  refine safe_guarded (.step (.inl (.writeLastError error)) fun _ =>
    .step (.inl .readCallback) .ret) (ErrorInit.notify error) (Or.inl ⟨hc, rfl⟩) (hQ _) ?_
  refine safe_writeLastError (safe_quiet (Or.inr (Or.inl rfl)) nofun fun callback => ?_)
  refine ⟨rfl, .idle, Or.inl rfl, ?_⟩
  cases callback with
  | none => exact hQ .success
  | some f =>
      by_cases he : error ≠ .success
      · show Safe t id c (if error ≠ .success then _ else _) Q .idle
        rw [if_pos he]
        exact safe_quiet (Or.inr (Or.inr ⟨f, error, rfl⟩)) nofun fun _ => hQ .success
      · show Safe t id c (if error ≠ .success then _ else _) Q .idle
        rw [if_neg he]
        exact hQ .success

theorem safe_registerCallback {Q : TtError → Ghost → Prop} (hc : Updates c) (hQ : ∀ e, Q e .idle)
    (callback : Option F) : Safe t id c (ttErrorRegisterCallback callback) Q .fresh := by
  refine safe_guarded (.step (.inl (.writeCallback callback)) .ret)
    (fun _ => .ret .success) (Or.inl ⟨hc, rfl⟩) (hQ _) ?_
  refine safe_writeCallback (Or.inl ⟨rfl, rfl⟩) ?_
  exact ⟨rfl, .idle, Or.inl rfl, hQ .success⟩

/-- Returning: `tt_error_deinit` returns success only once `initialized` is cleared for good. -/
theorem final_of_ends {a : TtVal} {g : Ghost}
    (hg : (g = .idle ∧ ¬ (c = .deinit ∧ a = .err .success)) ∨ g = .closed) :
    (outline F τ).Final t id c a g := by
  intro v G hb hinv hgt hcall _
  have hdeinit : Deinitialised (v.ret id t c a).trace → v.shared.1.initialized = false := by
    rintro ⟨id', t', h⟩
    rcases List.mem_append.mp h with hold | hnew
    · exact hinv.deinit ⟨id', t', hold⟩
    · cases List.mem_singleton.mp hnew
      have hknows := Outline.at_ghost hinv.knows hgt
      rcases hg with ⟨-, hne⟩ | rfl
      · exact absurd ⟨rfl, rfl⟩ hne
      · exact hknows
  refine ⟨.idle, rfl, ⟨?_, ?_, ?_, fun hd => hinv.cleared (hdeinit hd)⟩, ?_, hinv.cleared, hdeinit⟩
  · rw [View.ret_trace, initialised_snoc]
    exact hinv.state
  · refine hinv.writes.snoc ?_
    rintro id' t' c' (⟨_, _, he⟩ | ⟨_, _, he⟩) <;> cases he
  · exact hinv.lastError.snoc fun _ _ _ _ => nofun
  · exact (Function.forall_update_iff _ _).mpr ⟨trivial, fun u hu => (hinv.knows u).ret hu⟩

end Functions

/-! ### Runs -/

/-- The calls in question: the context is not initialised again. -/
abbrev NotInit (_ : ErrorView F τ) (_ : τ) (c : ErrorCall F) : Prop := c ≠ .init

variable [DecidableEq τ]

omit [DecidableEq τ] in
theorem inv_start :
    ∃ G, Inv (View.start (⟨.success, none, true⟩, none) : ErrorView F τ) G ∧
      ∀ t, (outline F τ).idle (G t) := by
  refine ⟨fun _ => .idle, ⟨⟨rfl, Always.nil, Always.nil, ?_⟩, fun _ => trivial, nofun, ?_⟩,
    fun _ => rfl⟩
  · exact fun _ => rfl
  · rintro ⟨_, _, h⟩
    exact absurd h List.not_mem_nil

theorem safe_body {t : τ} {id : Nat} {c : ErrorCall F} (hc : c ≠ .init) :
    Safe t id c ((errorSys F τ).body c) ((outline F τ).Final t id c) .fresh := by
  have hidle : c ≠ .deinit → ∀ a, (outline F τ).Final t id c a .idle := by
    intro hd a
    exact final_of_ends (Or.inl ⟨rfl, fun h => hd h.1⟩)
  cases c with
  | init => exact absurd rfl hc
  | deinit =>
      refine Outline.Wp.bind (safe_deinit ?_ ?_)
      · exact final_of_ends (Or.inl ⟨rfl, nofun⟩)
      · exact final_of_ends (Or.inr rfl)
  | getLast => exact Outline.Wp.bind (safe_getLast nofun fun e => hidle nofun (.err e))
  | setLast error =>
      refine Outline.Wp.bind (safe_setLast ?_ (fun e => hidle nofun (.err e)) error)
      trivial
  | isSuccess =>
      show Safe t id .isSuccess ((ttErrorGetLast >>= _) >>= _) _ .fresh
      rw [Prog.bind_assoc]
      exact Outline.Wp.bind (safe_getLast nofun fun e => hidle nofun (.bool _))
  | clear =>
      refine Outline.Wp.bind (safe_setLast ?_ (fun e => hidle nofun (.err e)) .success)
      trivial
  | registerCallback callback =>
      refine Outline.Wp.bind (safe_registerCallback ?_ (fun e => hidle nofun (.err e)) callback)
      trivial

/-- What `Outline.sound` asks about the start of a call. -/
theorem safe_call (v : ErrorView F τ) (G : τ → Ghost) (t : τ) (c : ErrorCall F) (hb : Books v)
    (hinv : Inv v G) (_ : v.calls t = none) (_ : G t = .idle) (hok : NotInit v t c)
    (_ : ¬ Overtaken (v.call t c).trace) :
    ∃ g, Inv (v.call t c) (Function.update G t g) ∧
      Safe t v.next c ((errorSys F τ).body c) ((outline F τ).Final t v.next c) g := by
  have hsnoc : Deinitialised (v.call t c).trace ↔ Deinitialised v.trace :=
    deinitialised_snoc fun _ _ => nofun
  refine ⟨.fresh, ⟨⟨?_, ?_, ?_, fun hd => hinv.callback (hsnoc.mp hd)⟩, ?_, hinv.cleared,
    fun hd => hinv.deinit (hsnoc.mp hd)⟩, safe_body hok⟩
  · rw [View.call_trace, initialised_snoc]
    exact hinv.state
  · refine hinv.writes.snoc ?_
    rintro id' t' c' (⟨_, _, he⟩ | ⟨_, _, he⟩) <;> cases he
  · exact hinv.lastError.snoc fun _ _ _ _ => nofun
  · refine (Function.forall_update_iff _ _).mpr ⟨?_, fun u hu => ?_⟩
    · refine ⟨v.next, c, by simp, ?_⟩
      rw [View.call_trace, prims_snoc_call]
      exact hb.fresh v.next (Nat.le_refl _)
    · exact (hinv.knows u).call hu

/-- A read, a deinit, and updates that find the context closed. -/
def refused : List (Label Nat Unit (ErrorCall Nat)) :=
  List.flatten [
    .call 0 .getLast :: List.replicate 4 (.prim 0 ()),
    .ret 0 :: .call 1 .deinit :: List.replicate 5 (.prim 1 ()),
    [.ret 1, .call 0 (.setLast .busy), .prim 0 (), .ret 0, .call 0 (.registerCallback (some 7)),
      .prim 0 (), .ret 0]]

/-- A deinit between the check and the lock of two updates. -/
def between : List (Label Nat Unit (ErrorCall Nat)) :=
  List.flatten [
    [.call 0 (.setLast .busy), .prim 0 (), .call 2 (.registerCallback (some 7)), .prim 2 ()],
    .call 1 .deinit :: List.replicate 5 (.prim 1 ()),
    .ret 1 :: List.replicate 4 (.prim 0 ()),
    .ret 0 :: List.replicate 3 (.prim 2 ()),
    [.ret 2]]

end ErrorDeinit

end TinyTools
