/-
The generic mutex excludes.

Both sides of it are read off the trace.  A thread holds `m` from the test-and-set
that found its byte clear to its own clear.  It has `m`, as far as it can know, from
the return of a lock or trylock that answered `TT_SUCCESS` to its next call of unlock.
Who has the mutex holds it, and who holds it has it, but for the calls in between.

The invariant ties the holder to the lock word.  The first byte is set exactly while
someone holds the mutex, and no function ever sets another byte, so the word
`tt_mutex_is_locked` loads is non-null exactly when the byte the test-and-sets work on
is set.  The clients' part is that only a thread that has the mutex calls unlock, and
it is what keeps a clear from releasing somebody else's lock.

What its one test-and-set, load or clear told a thread is remembered in its ghost until
it returns, which is how the value it returns is tied to the state at that step.
-/
import TinyTools.Lib.Outline
import TinyTools.Mutex

namespace TinyTools

open Interleave

namespace SpinMutex

variable {M τ : Type} [DecidableEq M] [DecidableEq τ] {w : Nat}

/-- A trace of threads calling the generic mutex. -/
abbrev SpinEvent (M : Type) (w : Nat) (τ : Type) := Event (spinSig M w) τ (MutexCall M) TtVal

abbrev SpinView (M : Type) (w : Nat) (τ : Type) :=
  View (spinSig M w) τ (M → SpinMutex w) (MutexCall M) TtVal

/-- One event, as it changes whether `t` holds `m`. -/
def holdsStep (m : M) (t : τ) (held : Bool) : SpinEvent M w τ → Bool
  | .prim _ u (.testAndSet m') wasSet | .prim _ u (.spinTestAndSet m') wasSet =>
      if u = t ∧ m' = m ∧ wasSet = false then true else held
  | .prim _ u (.clear m') _ => if u = t ∧ m' = m then false else held
  | _ => held

/-- Thread `t` holds `m`: it found the byte clear and has not cleared it since. -/
def holds (m : M) (tr : List (SpinEvent M w τ)) (t : τ) : Bool :=
  tr.foldl (holdsStep m t) false

@[simp] theorem holds_nil (m : M) (t : τ) : holds m ([] : List (SpinEvent M w τ)) t = false := rfl

@[simp] theorem holds_snoc (m : M) (tr : List (SpinEvent M w τ)) (e : SpinEvent M w τ) (t : τ) :
    holds m (tr ++ [e]) t = holdsStep m t (holds m tr t) e := by
  simp [holds]

/-- One event, as it changes whether `t` has `m`. -/
def hasStep (m : M) (t : τ) (had : Bool) : SpinEvent M w τ → Bool
  | .call _ u c => if u = t ∧ c = .unlock (some m) then false else had
  | .ret _ u c a =>
      if u = t ∧ (c = .lock (some m) ∨ c = .trylock (some m)) ∧ a = .err .success then true
      else had
  | .prim _ _ _ _ => had

/-- Thread `t` has `m`: a lock or trylock has returned `TT_SUCCESS` to it, and it has not called
unlock since. -/
def has (m : M) (tr : List (SpinEvent M w τ)) (t : τ) : Bool :=
  tr.foldl (hasStep m t) false

@[simp] theorem has_nil (m : M) (t : τ) : has m ([] : List (SpinEvent M w τ)) t = false := rfl

@[simp] theorem has_snoc (m : M) (tr : List (SpinEvent M w τ)) (e : SpinEvent M w τ) (t : τ) :
    has m (tr ++ [e]) t = hasStep m t (has m tr t) e := by
  simp [has]

/-- The clients' promise on `m`: no further init or destroy, and unlock only while having it. -/
def Owned (m : M) (v : SpinView M w τ) (t : τ) : MutexCall M → Prop
  | .init (some m') | .destroy (some m') => m' ≠ m
  | .unlock (some m') => m' = m → has m v.trace t = true
  | _ => True

instance (m : M) (v : SpinView M w τ) (t : τ) (c : MutexCall M) : Decidable (Owned m v t c) :=
  match c with
  | .init (some m') | .destroy (some m') => inferInstanceAs (Decidable (m' ≠ m))
  | .unlock (some m') => inferInstanceAs (Decidable (m' = m → has m v.trace t = true))
  | .init none | .destroy none | .unlock none | .lock _ | .trylock _ | .isLocked _ =>
      inferInstanceAs (Decidable True)

/-- The calls on `m` that take it, give it up or ask about it. -/
def About (m : M) : MutexCall M → Prop
  | .lock mutex | .unlock mutex | .trylock mutex | .isLocked mutex => mutex = some m
  | .init _ | .destroy _ => False

/-- The calls in which a thread comes to hold `m` or to hold it no longer. -/
def Moves (m : M) (c : MutexCall M) : Prop :=
  c = .lock (some m) ∨ c = .trylock (some m) ∨ c = .unlock (some m)

/-- In call `id`, `t` performed `p` at a moment when `b` told whether `m` was held; it cleared it
only while holding it. -/
def Probed (m : M) (tr : List (SpinEvent M w τ)) (id : Nat) (t : τ) (p : SpinOp M) (b : Bool) :
    Prop :=
  At tr fun tr₁ e => (∃ r, e = .prim id t p r) ∧ (b = true ↔ ∃ u, holds m tr₁ u = true) ∧
    (p = .clear m → holds m tr₁ t = true)

/-- What a call on `m` answers after it performed `p` at a moment when `b` told whether `m` was
held. -/
def Reply (m : M) (p : SpinOp M) (b : Bool) (a : TtVal) : MutexCall M → Prop
  | .lock _ => p = .spinTestAndSet m ∧ b = false ∧ a = .err .success
  | .unlock _ => p = .clear m ∧ a = .err .success
  | .trylock _ => p = .testAndSet m ∧ a = .err (if b then .busy else .success)
  | .isLocked _ => p = .load m ∧ a = .bool b
  | .init _ | .destroy _ => False

/-- Every call on `m` has returned what its own probe found. -/
def Told (m : M) (tr : List (SpinEvent M w τ)) : Prop :=
  ∀ id t c a, .ret id t c a ∈ tr → About m c → ∃ p b, Reply m p b a c ∧ Probed m tr id t p b

/-- What a thread remembers: whether it holds the mutex, whether it has been told so, and what
its last probe found. -/
structure Ghost (M : Type) : Type where
  held : Bool
  has : Bool
  saw : Option (SpinOp M × Bool)

/-- The invariant of mutex `m`. -/
structure Inv (m : M) (v : SpinView M w τ) (G : τ → Ghost M) : Prop where
  ready : (v.shared m).initialized = true
  held : ∀ t, holds m v.trace t = (G t).held
  has : ∀ t, has m v.trace t = (G t).has
  /-- What a thread holds and what it has differ only within a call, which is yet to say so. -/
  midway : ∀ t, (G t).held ≠ (G t).has →
    (G t).held = true ∧ ∃ id c, v.calls t = some (id, c) ∧ Moves m c
  one : ∀ t u, (G t).held = true → (G u).held = true → t = u
  /-- The byte is set exactly while somebody holds the mutex. -/
  byte : ((v.shared m).lock 0 = setByte ∧ ∃ t, (G t).held = true) ∨
    ((v.shared m).lock 0 = 0 ∧ ∀ t, (G t).held = false)
  rest : ∀ i, i ≠ 0 → (v.shared m).lock i = 0
  saw : ∀ t id c p b, v.calls t = some (id, c) → (G t).saw = some (p, b) →
    Probed m v.trace id t p b
  told : Told m v.trace

def outline (w : Nat) (m : M) :
    Outline (spinSig M w) τ (M → SpinMutex w) (MutexCall M) TtVal (Ghost M) where
  idle g := g.held = g.has
  inv := Inv m

theorem Probed.snoc {m : M} {tr : List (SpinEvent M w τ)} {id : Nat} {t : τ} {p : SpinOp M}
    {b : Bool} (h : Probed m tr id t p b) (e : SpinEvent M w τ) :
    Probed m (tr ++ [e]) id t p b := At.snoc h e

/-- An event in which no call returns. -/
theorem Told.snoc {m : M} {tr : List (SpinEvent M w τ)} (h : Told m tr) {e : SpinEvent M w τ}
    (he : ∀ id t c a, e ≠ .ret id t c a) : Told m (tr ++ [e]) := by
  intro id t c a ha habout
  rcases List.mem_append.mp ha with hold | hlast
  · obtain ⟨p, b, hreply, hb⟩ := h id t c a hold habout
    exact ⟨p, b, hreply, hb.snoc e⟩
  · exact absurd (List.mem_singleton.mp hlast).symm (he id t c a)

/-- The word as a truth value is its first byte, the others being zero. -/
theorem wordSet_eq {bytes : Fin (w + 1) → UInt8} (hrest : ∀ i, i ≠ 0 → bytes i = 0) :
    wordSet bytes = decide (bytes 0 ≠ 0) := by
  unfold wordSet
  refine decide_eq_decide.mpr ⟨?_, fun h => ⟨0, h⟩⟩
  rintro ⟨i, hi⟩
  by_cases h0 : i = 0
  · rw [← h0]
    exact hi
  · exact absurd (hrest i h0) hi

theorem setFirst_self {x : SpinMutex w} {b : UInt8} (h : x.lock 0 = b) : x.setFirst b = x := by
  subst h
  simp [SpinMutex.setFirst]

omit [DecidableEq M] in
/-- A thread's note does not bear on who holds the mutex. -/
theorem update_held {G : τ → Ghost M} (t u : τ) (b : Bool) (n : Option (SpinOp M × Bool)) :
    (Function.update G t ⟨(G t).held, b, n⟩ u).held = (G u).held := by
  by_cases hu : u = t
  · subst hu
    simp
  · simp [hu]

omit [DecidableEq M] in
/-- Nor on who has it. -/
theorem update_has {G : τ → Ghost M} (t u : τ) (b : Bool) (n : Option (SpinOp M × Bool)) :
    (Function.update G t ⟨b, (G t).has, n⟩ u).has = (G u).has := by
  by_cases hu : u = t
  · subst hu
    simp
  · simp [hu]

/-! ### Steps that leave the mutex alone -/

namespace Inv

variable {m : M} {v : SpinView M w τ} {G : τ → Ghost M}

/-- Whoever has the mutex holds it. -/
theorem held_of_has (h : Inv m v G) {t : τ} (ht : (G t).has = true) : (G t).held = true := by
  by_contra hheld
  refine hheld (h.midway t fun heq => hheld ?_).1
  rw [heq]
  exact ht

/-- A primitive that leaves the word of `m` and its holder alone keeps the invariant, and its
thread may note what it was told. -/
theorem prim_keep (h : Inv m v G) {id : Nat} {t : τ} {c : MutexCall M} {p : SpinOp M}
    {r : SpinOp.Res w p} {s : M → SpinMutex w} {n : Option (SpinOp M × Bool)}
    (hc : v.calls t = some (id, c)) (hs : s m = v.shared m)
    (hstep : ∀ u b, holdsStep m u b (.prim id t p r : SpinEvent M w τ) = b)
    (hsaw : ∀ q b, n = some (q, b) → q = p ∧ (b = true ↔ ∃ u, (G u).held = true) ∧ p ≠ .clear m) :
    Inv m (v.prim id t p r s) (Function.update G t ⟨(G t).held, (G t).has, n⟩) := by
  refine ⟨?_, ?_, ?_, ?_, ?_, ?_, ?_, ?_, h.told.snoc (by rintro _ _ _ _ ⟨⟩)⟩
  · simpa [hs] using h.ready
  · intro u
    rw [View.prim_trace, holds_snoc, hstep, h.held u, update_held]
  · intro u
    rw [View.prim_trace, has_snoc, update_has]
    exact h.has u
  · intro u
    rw [update_held, update_has]
    exact h.midway u
  · intro u₁ u₂
    rw [update_held, update_held]
    exact h.one u₁ u₂
  · simp only [View.prim_shared, hs, update_held]
    exact h.byte
  · simpa [hs] using h.rest
  · intro u id' c' q b hu hq
    rw [View.prim_calls] at hu
    by_cases hut : u = t
    · subst hut
      rw [hc] at hu
      cases hu
      obtain ⟨rfl, hb, hne⟩ := hsaw q b (by simpa using hq)
      refine At.last ⟨⟨r, rfl⟩, hb.trans ?_, fun hclear => absurd hclear hne⟩
      simp only [h.held]
    · rw [Function.update_of_ne hut] at hq
      exact (h.saw u id' c' q b hu hq).snoc _

/-- What a thread has after it called a function. -/
def hasAfter (m : M) (c : MutexCall M) (had : Bool) : Bool :=
  if c = .unlock (some m) then false else had

/-- Starting a call keeps the invariant; nothing has been probed in it yet. -/
theorem call_keep (h : Inv m v G) (t : τ) (c : MutexCall M) (hidle : (G t).held = (G t).has)
    (hunlock : c = .unlock (some m) → (G t).held = true) :
    Inv m (v.call t c) (Function.update G t ⟨(G t).held, hasAfter m c (G t).has, none⟩) := by
  refine ⟨h.ready, ?_, ?_, ?_, ?_, ?_, h.rest, ?_, h.told.snoc (by rintro _ _ _ _ ⟨⟩)⟩
  · intro u
    rw [View.call_trace, holds_snoc, update_held]
    exact h.held u
  · intro u
    rw [View.call_trace, has_snoc, h.has u]
    by_cases hut : u = t
    · subst hut
      simp [hasStep, hasAfter]
    · simp [hasStep, hut, Ne.symm hut]
  · intro u hne
    by_cases hut : u = t
    · subst hut
      rw [Function.update_self] at hne ⊢
      unfold hasAfter at hne
      split at hne
      · rename_i hc
        exact ⟨hunlock hc, v.next, c, by simp, Or.inr (Or.inr hc)⟩
      · exact absurd hidle hne
    · rw [Function.update_of_ne hut] at hne ⊢
      rw [View.call_calls, Function.update_of_ne hut]
      exact h.midway u hne
  · intro u₁ u₂
    rw [update_held, update_held]
    exact h.one u₁ u₂
  · simp only [View.call_shared, update_held]
    exact h.byte
  · intro u id' c' q b hu hq
    by_cases hut : u = t
    · subst hut
      simp at hq
    · rw [Function.update_of_ne hut] at hq
      rw [View.call_calls, Function.update_of_ne hut] at hu
      exact (h.saw u id' c' q b hu hq).snoc _

/-- Returning keeps the invariant, if what is returned is what the probe of the call told, and
what the thread is told by it is what it holds. -/
theorem ret_keep (h : Inv m v G) {id : Nat} {t : τ} {c : MutexCall M} {a : TtVal}
    (htold : About m c → ∃ p b, Reply m p b a c ∧ Probed m v.trace id t p b)
    (hheld : (G t).held = hasStep m t (G t).has (.ret id t c a : SpinEvent M w τ)) :
    Inv m (v.ret id t c a) (Function.update G t ⟨(G t).held, (G t).held, none⟩) := by
  refine ⟨h.ready, ?_, ?_, ?_, ?_, ?_, h.rest, ?_, ?_⟩
  · intro u
    rw [View.ret_trace, holds_snoc, update_held]
    exact h.held u
  · intro u
    rw [View.ret_trace, has_snoc, h.has u]
    by_cases hut : u = t
    · subst hut
      rw [Function.update_self]
      exact hheld.symm
    · simp [hasStep, hut, Ne.symm hut]
  · intro u hne
    by_cases hut : u = t
    · subst hut
      simp at hne
    · rw [Function.update_of_ne hut] at hne ⊢
      rw [View.ret_calls, Function.update_of_ne hut]
      exact h.midway u hne
  · intro u₁ u₂
    rw [update_held, update_held]
    exact h.one u₁ u₂
  · simp only [View.ret_shared, update_held]
    exact h.byte
  · intro u id' c' q b hu hq
    by_cases hut : u = t
    · subst hut
      simp at hu
    · rw [View.ret_calls, Function.update_of_ne hut] at hu
      rw [Function.update_of_ne hut] at hq
      exact (h.saw u id' c' q b hu hq).snoc _
  · intro id' u c' a' ha habout
    rw [View.ret_trace, List.mem_append] at ha
    rcases ha with ha | ha
    · obtain ⟨p, b, hreply, hb⟩ := h.told id' u c' a' ha habout
      exact ⟨p, b, hreply, hb.snoc _⟩
    · simp only [List.mem_singleton, Event.ret.injEq] at ha
      obtain ⟨rfl, rfl, rfl, rfl⟩ := ha
      obtain ⟨p, b, hreply, hb⟩ := htold habout
      exact ⟨p, b, hreply, hb.snoc _⟩

/-! ### Taking and releasing -/

/-- The test-and-set that finds the byte clear makes its thread the holder. -/
theorem take (h : Inv m v G) {id : Nat} {t : τ} {c : MutexCall M} {p : SpinOp M}
    {r : SpinOp.Res w p} {s : M → SpinMutex w} {n : Option (SpinOp M × Bool)}
    (hc : v.calls t = some (id, c)) (hmoves : Moves m c)
    (hs : s m = (v.shared m).setFirst setByte) (hclear : (v.shared m).lock 0 = 0)
    (hstep : ∀ u b, holdsStep m u b (.prim id t p r : SpinEvent M w τ) = if t = u then true else b)
    (hsaw : ∀ q b, n = some (q, b) → q = p ∧ b = false ∧ p ≠ .clear m) :
    Inv m (v.prim id t p r s) (Function.update G t ⟨true, (G t).has, n⟩) := by
  have hfree : ∀ u, (G u).held = false := by
    rcases h.byte with ⟨hset, -⟩ | ⟨-, hnone⟩
    · rw [hclear] at hset
      exact absurd hset (by decide)
    · exact hnone
  refine ⟨?_, ?_, ?_, ?_, ?_, ?_, ?_, ?_, h.told.snoc (by rintro _ _ _ _ ⟨⟩)⟩
  · simpa [hs, SpinMutex.setFirst] using h.ready
  · intro u
    rw [View.prim_trace, holds_snoc, hstep, h.held u]
    by_cases hu : u = t
    · subst hu
      simp
    · simp [hu, Ne.symm hu]
  · intro u
    rw [View.prim_trace, has_snoc, update_has]
    exact h.has u
  · intro u hne
    by_cases hu : u = t
    · subst hu
      rw [Function.update_self]
      exact ⟨rfl, id, c, hc, hmoves⟩
    · rw [Function.update_of_ne hu] at hne ⊢
      exact h.midway u hne
  · intro u₁ u₂ h₁ h₂
    by_cases hu₁ : u₁ = t
    · by_cases hu₂ : u₂ = t
      · exact hu₁.trans hu₂.symm
      · rw [Function.update_of_ne hu₂, hfree] at h₂
        exact Bool.noConfusion h₂
    · rw [Function.update_of_ne hu₁, hfree] at h₁
      exact Bool.noConfusion h₁
  · refine Or.inl ⟨?_, t, by simp⟩
    simp [hs, SpinMutex.setFirst]
  · intro i hi
    simpa [hs, SpinMutex.setFirst, hi] using h.rest i hi
  · intro u id' c' q b hu hq
    rw [View.prim_calls] at hu
    by_cases hut : u = t
    · subst hut
      rw [hc] at hu
      cases hu
      obtain ⟨rfl, rfl, hne⟩ := hsaw q b (by simpa using hq)
      refine At.last ⟨⟨r, rfl⟩, ?_, fun hclear => absurd hclear hne⟩
      simp [h.held, hfree]
    · rw [Function.update_of_ne hut] at hq
      exact (h.saw u id' c' q b hu hq).snoc _

/-- The holder's clear frees the mutex. -/
theorem release (h : Inv m v G) {id : Nat} {t : τ} {c : MutexCall M}
    (hc : v.calls t = some (id, c)) (hheld : (G t).held = true) (hhas : (G t).has = false) :
    Inv m (v.prim id t (.clear m) () (Function.update v.shared m ((v.shared m).setFirst 0)))
      (Function.update G t ⟨false, false, some (.clear m, true)⟩) := by
  have hothers : ∀ u, u ≠ t → (G u).held = false := by
    intro u hu
    by_contra hcon
    exact hu (h.one u t (by simpa using hcon) hheld)
  have hfree : ∀ u, (Function.update G t ⟨false, false, some (.clear m, true)⟩ u).held = false := by
    intro u
    by_cases hu : u = t
    · subst hu
      simp
    · rw [Function.update_of_ne hu]
      exact hothers u hu
  refine ⟨?_, ?_, ?_, ?_, ?_, ?_, ?_, ?_, h.told.snoc (by rintro _ _ _ _ ⟨⟩)⟩
  · simpa [SpinMutex.setFirst] using h.ready
  · intro u
    rw [View.prim_trace, holds_snoc, h.held u, hfree u]
    by_cases hu : u = t
    · subst hu
      simp [holdsStep]
    · simp [holdsStep, Ne.symm hu, hothers u hu]
  · intro u
    rw [View.prim_trace, has_snoc]
    by_cases hu : u = t
    · subst hu
      rw [Function.update_self]
      exact (h.has u).trans hhas
    · rw [Function.update_of_ne hu]
      exact h.has u
  · intro u hne
    by_cases hu : u = t
    · subst hu
      simp at hne
    · rw [Function.update_of_ne hu] at hne ⊢
      exact h.midway u hne
  · intro u₁ u₂ h₁
    rw [hfree] at h₁
    exact Bool.noConfusion h₁
  · exact Or.inr ⟨by simp [SpinMutex.setFirst], hfree⟩
  · intro i hi
    simpa [SpinMutex.setFirst, hi] using h.rest i hi
  · intro u id' c' q b hu hq
    rw [View.prim_calls] at hu
    by_cases hut : u = t
    · subst hut
      rw [hc] at hu
      cases hu
      obtain ⟨rfl, rfl⟩ : .clear m = q ∧ true = b := by simpa using hq
      have hself : holds m v.trace u = true := (h.held u).trans hheld
      exact At.last ⟨⟨(), rfl⟩, iff_of_true rfl ⟨u, hself⟩, fun _ => hself⟩
    · rw [Function.update_of_ne hut] at hq
      exact (h.saw u id' c' q b hu hq).snoc _

end Inv

/-! ### The functions -/

section Functions

variable {m : M} {t : τ} {id : Nat} {c : MutexCall M} {β : Type} {held had : Bool}

/-- The program `k`, in call `c`, from a thread that holds and has what the ghost says. -/
abbrev Safe (w : Nat) (m : M) (t : τ) (id : Nat) (c : MutexCall M) (k : Prog (spinSig M w) β)
    (Q : β → Ghost M → Prop) (g : Ghost M) : Prop :=
  (outline w m).Wp (spinMachine M w τ) t id c k Q g

/-- Reading `initialized` of `m` answers true. -/
theorem wp_readInitialized {m' : M} {k : Bool → Prog (spinSig M w) β} {Q : β → Ghost M → Prop}
    (h : ∀ ready, (m' = m → ready = true) → Safe w m t id c (k ready) Q ⟨held, had, none⟩) :
    Safe w m t id c (.step (.readInitialized m') k) Q ⟨held, had, none⟩ := by
  intro v G _ hinv hg hc
  refine ⟨trivial, ?_⟩
  intro x r s hexec _
  cases hexec
  refine ⟨⟨held, had, none⟩, ?_, h _ ?_⟩
  · have hkeep := hinv.prim_keep (n := none) (p := .readInitialized m')
      (r := (v.shared m').initialized) hc rfl (fun _ _ => rfl) (by simp)
    rw [hg] at hkeep
    exact hkeep
  · rintro rfl
    exact hinv.ready

/-- `testAndSet` makes `t` the holder or tells it that `m` is held; on another mutex it is
of no account. -/
theorem wp_testAndSet {m' : M} {k : Bool → Prog (spinSig M w) β} {Q : β → Ghost M → Prop}
    (hmoves : m' = m → Moves m c)
    (h : ∀ wasSet, Safe w m t id c (k wasSet) Q
      (if m' = m then ⟨!wasSet || held, had, some (.testAndSet m, wasSet)⟩
        else ⟨held, had, none⟩)) :
    Safe w m t id c (.step (.testAndSet m') k) Q ⟨held, had, none⟩ := by
  intro v G _ hinv hg hc
  refine ⟨trivial, ?_⟩
  intro x r s hexec _
  cases hexec
  by_cases hm : m' = m
  · subst hm
    rcases hinv.byte with ⟨hset, hsome⟩ | ⟨hclear, hnone⟩
    · have hkeep := hinv.prim_keep (n := some (.testAndSet m', true)) (p := .testAndSet m')
        (r := decide ((v.shared m').lock 0 ≠ 0))
        (s := Function.update v.shared m' ((v.shared m').setFirst setByte)) hc
        (by simp [setFirst_self hset]) (fun u b => by simp [holdsStep, hset, setByte])
        (by
          rintro q b heq
          cases heq
          exact ⟨rfl, by simpa using hsome, by rintro ⟨⟩⟩)
      rw [hg] at hkeep
      exact ⟨_, hkeep, by simpa [hset, setByte] using h true⟩
    · have htake := hinv.take (n := some (.testAndSet m', false)) (p := .testAndSet m')
        (r := decide ((v.shared m').lock 0 ≠ 0))
        (s := Function.update v.shared m' ((v.shared m').setFirst setByte)) hc (hmoves rfl)
        (by simp) hclear (fun u b => by simp [holdsStep, hclear])
        (by
          rintro q b heq
          cases heq
          exact ⟨rfl, rfl, by rintro ⟨⟩⟩)
      rw [hg] at htake
      exact ⟨_, htake, by simpa [hclear] using h false⟩
  · have hkeep := hinv.prim_keep (n := none) (p := .testAndSet m')
      (r := decide ((v.shared m').lock 0 ≠ 0))
      (s := Function.update v.shared m' ((v.shared m').setFirst setByte)) hc
      (by simp [Ne.symm hm]) (fun u b => by simp [holdsStep, hm]) (by simp)
    rw [hg] at hkeep
    exact ⟨_, hkeep, by simpa [hm] using h (decide ((v.shared m').lock 0 ≠ 0))⟩

/-- The spin loop ends with its thread the holder, if it is on `m`. -/
theorem wp_spinTestAndSet {m' : M} {k : Bool → Prog (spinSig M w) β} {Q : β → Ghost M → Prop}
    (hmoves : m' = m → Moves m c)
    (h : Safe w m t id c (k false) Q
      (if m' = m then ⟨true, had, some (.spinTestAndSet m, false)⟩ else ⟨held, had, none⟩)) :
    Safe w m t id c (.step (.spinTestAndSet m') k) Q ⟨held, had, none⟩ := by
  intro v G _ hinv hg hc
  refine ⟨trivial, ?_⟩
  intro x r s hexec _
  cases hexec
  by_cases hset : (v.shared m').lock 0 = 0
  · -- the loop ends here
    refine (if_neg (by simp [spinMachine, SpinOp.again, hset])).mpr ?_
    by_cases hm : m' = m
    · subst hm
      have htake := hinv.take (n := some (.spinTestAndSet m', false)) (p := .spinTestAndSet m')
        (r := decide ((v.shared m').lock 0 ≠ 0))
        (s := Function.update v.shared m' ((v.shared m').setFirst setByte)) hc (hmoves rfl)
        (by simp) hset (fun u b => by simp [holdsStep, hset])
        (by
          rintro q b heq
          cases heq
          exact ⟨rfl, rfl, by rintro ⟨⟩⟩)
      rw [hg] at htake
      exact ⟨_, htake, by simpa [hset] using h⟩
    · have hkeep := hinv.prim_keep (n := none) (p := .spinTestAndSet m')
        (r := decide ((v.shared m').lock 0 ≠ 0))
        (s := Function.update v.shared m' ((v.shared m').setFirst setByte)) hc
        (by simp [Ne.symm hm]) (fun u b => by simp [holdsStep, hm]) (by simp)
      rw [hg] at hkeep
      exact ⟨_, hkeep, by simpa [hm, hset] using h⟩
  · refine (if_pos (by simp [spinMachine, SpinOp.again, hset])).mpr ?_
    have hkeep := hinv.prim_keep (n := none) (p := .spinTestAndSet m')
      (r := decide ((v.shared m').lock 0 ≠ 0))
      (s := Function.update v.shared m' ((v.shared m').setFirst setByte)) hc
      (by
        by_cases hm : m' = m
        · subst hm
          rcases hinv.byte with ⟨hbyte, -⟩ | ⟨hclear, -⟩
          · simp [setFirst_self hbyte]
          · exact absurd hclear hset
        · simp [Ne.symm hm])
      (fun u b => by simp [holdsStep, hset]) (by simp)
    have hself : (⟨(G t).held, (G t).has, none⟩ : Ghost M) = G t := by rw [hg]
    rw [hself, Function.update_eq_self] at hkeep
    exact hkeep

/-- The holder's clear of `m`, which it no longer has. -/
theorem wp_clear {m' : M} {k : Unit → Prog (spinSig M w) β} {Q : β → Ghost M → Prop}
    (hheld : m' = m → held = true ∧ had = false)
    (h : Safe w m t id c (k ()) Q
      (if m' = m then ⟨false, false, some (.clear m, true)⟩ else ⟨held, had, none⟩)) :
    Safe w m t id c (.step (.clear m') k) Q ⟨held, had, none⟩ := by
  intro v G _ hinv hg hc
  refine ⟨trivial, ?_⟩
  intro x r s hexec _
  cases hexec
  by_cases hm : m' = m
  · subst hm
    obtain ⟨rfl, rfl⟩ := hheld rfl
    exact ⟨_, hinv.release hc (by rw [hg]) (by rw [hg]), by simpa using h⟩
  · have hkeep := hinv.prim_keep (n := none) (p := .clear m') (r := ())
      (s := Function.update v.shared m' ((v.shared m').setFirst 0)) hc
      (by simp [Ne.symm hm]) (fun u b => by simp [holdsStep, hm]) (by simp)
    rw [hg] at hkeep
    exact ⟨_, hkeep, by simpa [hm] using h⟩

/-- The load of `m` tells whether it is held. -/
theorem wp_load {m' : M} {k : (Fin (w + 1) → UInt8) → Prog (spinSig M w) β}
    {Q : β → Ghost M → Prop}
    (h : ∀ bytes, Safe w m t id c (k bytes) Q
      (if m' = m then ⟨held, had, some (.load m, wordSet bytes)⟩ else ⟨held, had, none⟩)) :
    Safe w m t id c (.step (.load m') k) Q ⟨held, had, none⟩ := by
  intro v G _ hinv hg hc
  refine ⟨trivial, ?_⟩
  intro x r s hexec _
  cases hexec
  by_cases hm : m' = m
  · subst hm
    have hword := wordSet_eq hinv.rest
    have hkeep := hinv.prim_keep (n := some (.load m', wordSet (v.shared m').lock)) (p := .load m')
      (r := (v.shared m').lock) hc rfl (fun _ _ => rfl)
      (by
        rintro q b heq
        cases heq
        refine ⟨rfl, ?_, by rintro ⟨⟩⟩
        rcases hinv.byte with ⟨hset, hsome⟩ | ⟨hclear, hnone⟩
        · simpa [hword, hset, setByte] using hsome
        · simp [hword, hclear, hnone])
    rw [hg] at hkeep
    exact ⟨_, hkeep, by simpa using h (v.shared m').lock⟩
  · have hkeep := hinv.prim_keep (n := none) (p := .load m') (r := (v.shared m').lock) hc rfl
      (fun _ _ => rfl) (by simp)
    rw [hg] at hkeep
    exact ⟨_, hkeep, by simpa [hm] using h (v.shared m').lock⟩

/-- A store to another mutex. -/
theorem wp_store {m' : M} (hm : m' ≠ m) {p : SpinOp M} {k : SpinOp.Res w p → Prog (spinSig M w) β}
    {Q : β → Ghost M → Prop} (hp : p = .storeUnlocked m' ∨ ∃ b, p = .writeInitialized m' b)
    (h : ∀ r, Safe w m t id c (k r) Q ⟨held, had, none⟩) :
    Safe w m t id c (.step p k) Q ⟨held, had, none⟩ := by
  intro v G _ hinv hg hc
  refine ⟨trivial, ?_⟩
  intro x r s hexec _
  rcases hp with rfl | ⟨b, rfl⟩
  · cases hexec
    have hkeep := hinv.prim_keep (n := none) (p := .storeUnlocked m') (r := ())
      (s := Function.update v.shared m' { v.shared m' with lock := fun _ => 0 }) hc
      (by simp [Ne.symm hm]) (fun _ _ => rfl) (by simp)
    rw [hg] at hkeep
    exact ⟨_, hkeep, h ()⟩
  · cases hexec
    have hkeep := hinv.prim_keep (n := none) (p := .writeInitialized m' b) (r := ())
      (s := Function.update v.shared m' { v.shared m' with initialized := b }) hc
      (by simp [Ne.symm hm]) (fun _ _ => rfl) (by simp)
    rw [hg] at hkeep
    exact ⟨_, hkeep, h ()⟩

/-- A call may return what its probe of `m` told it, and what makes its thread have what it
holds. -/
theorem final_of_saw {a : TtVal} {g : Ghost M}
    (htold : About m c → ∃ p b, g.saw = some (p, b) ∧ Reply m p b a c)
    (hheld : g.held = hasStep m t g.has (.ret id t c a : SpinEvent M w τ)) :
    (outline w m).Final t id c a g := by
  intro v G _ hinv hg hc _
  subst hg
  refine ⟨⟨(G t).held, (G t).held, none⟩, rfl, hinv.ret_keep ?_ hheld⟩
  intro habout
  obtain ⟨p, b, hsaw, hreply⟩ := htold habout
  exact ⟨p, b, hreply, hinv.saw t id c p b hc hsaw⟩

/-- What the other calls answer is not looked at. -/
theorem final_of_other {a : TtVal} {saw : Option (SpinOp M × Bool)} (habout : ¬ About m c) :
    (outline w m).Final t id c a ⟨held, held, saw⟩ := by
  refine final_of_saw (fun h => absurd h habout) ?_
  have hmoves : ¬ (c = .lock (some m) ∨ c = .trylock (some m)) := by
    rintro (rfl | rfl)
    · exact habout rfl
    · exact habout rfl
  simp [hasStep, hmoves]

theorem wp_lock (mutex : Option M) :
    Safe w m t id (.lock mutex) (ttMutexLock mutex)
      (fun e => (outline w m).Final t id (.lock mutex) (.err e)) ⟨held, held, none⟩ := by
  cases mutex with
  | none => exact final_of_other nofun
  | some m' =>
      refine wp_readInitialized fun ready hready => ?_
      cases ready with
      | false => exact final_of_other fun h => Bool.false_ne_true (hready (Option.some.inj h))
      | true =>
          refine wp_spinTestAndSet (fun h => Or.inl (by rw [h])) ?_
          by_cases hm : m' = m
          · subst hm
            rw [if_pos rfl]
            exact final_of_saw (fun _ => ⟨_, _, rfl, rfl, rfl, rfl⟩) (by simp [hasStep])
          · rw [if_neg hm]
            exact final_of_other fun h => hm (Option.some.inj h)

theorem wp_unlock (mutex : Option M) (hheld : mutex = some m → held = true) :
    Safe w m t id (.unlock mutex) (ttMutexUnlock mutex)
      (fun e => (outline w m).Final t id (.unlock mutex) (.err e))
      ⟨held, Inv.hasAfter m (.unlock mutex) held, none⟩ := by
  by_cases hmutex : mutex = some m
  · subst hmutex
    have hafter : Inv.hasAfter m (.unlock (some m)) held = false := if_pos rfl
    rw [hafter, hheld rfl]
    refine wp_readInitialized fun ready hready => ?_
    rw [hready rfl]
    refine wp_clear (fun _ => ⟨rfl, rfl⟩) ?_
    rw [if_pos rfl]
    exact final_of_saw (fun _ => ⟨_, _, rfl, rfl, rfl⟩) (by simp [hasStep])
  · have hafter : Inv.hasAfter m (.unlock mutex) held = held := if_neg (by simpa using hmutex)
    rw [hafter]
    cases mutex with
    | none => exact final_of_other nofun
    | some m' =>
        have hm : m' ≠ m := fun h => hmutex (by rw [h])
        refine wp_readInitialized fun ready _ => ?_
        cases ready with
        | false => exact final_of_other fun h => hm (Option.some.inj h)
        | true =>
            refine wp_clear (fun h => absurd h hm) ?_
            rw [if_neg hm]
            exact final_of_other fun h => hm (Option.some.inj h)

theorem wp_trylock (mutex : Option M) :
    Safe w m t id (.trylock mutex) (ttMutexTrylock mutex)
      (fun e => (outline w m).Final t id (.trylock mutex) (.err e)) ⟨held, held, none⟩ := by
  cases mutex with
  | none => exact final_of_other nofun
  | some m' =>
      refine wp_readInitialized fun ready hready => ?_
      cases ready with
      | false => exact final_of_other fun h => Bool.false_ne_true (hready (Option.some.inj h))
      | true =>
          refine wp_testAndSet (fun h => Or.inr (Or.inl (by rw [h]))) fun wasSet => ?_
          by_cases hm : m' = m
          · subst hm
            rw [if_pos rfl]
            cases wasSet with
            | false => exact final_of_saw (fun _ => ⟨_, _, rfl, rfl, rfl⟩) (by simp [hasStep])
            | true => exact final_of_saw (fun _ => ⟨_, _, rfl, rfl, rfl⟩) (by simp [hasStep])
          · rw [if_neg hm]
            cases wasSet with
            | false => exact final_of_other fun h => hm (Option.some.inj h)
            | true => exact final_of_other fun h => hm (Option.some.inj h)

theorem wp_isLocked (mutex : Option M) :
    Safe w m t id (.isLocked mutex) (ttMutexIsLocked mutex)
      (fun b => (outline w m).Final t id (.isLocked mutex) (.bool b)) ⟨held, held, none⟩ := by
  cases mutex with
  | none => exact final_of_other nofun
  | some m' =>
      refine wp_readInitialized fun ready hready => ?_
      cases ready with
      | false => exact final_of_other fun h => Bool.false_ne_true (hready (Option.some.inj h))
      | true =>
          refine wp_load fun bytes => ?_
          show Safe w m t id (.isLocked (some m')) (if wordSet bytes then .ret true else .ret false) _ _
          by_cases hm : m' = m
          · subst hm
            rw [if_pos rfl]
            cases wordSet bytes with
            | false => exact final_of_saw (fun _ => ⟨_, _, rfl, rfl, rfl⟩) (by simp [hasStep])
            | true => exact final_of_saw (fun _ => ⟨_, _, rfl, rfl, rfl⟩) (by simp [hasStep])
          · rw [if_neg hm]
            cases wordSet bytes with
            | false => exact final_of_other fun h => hm (Option.some.inj h)
            | true => exact final_of_other fun h => hm (Option.some.inj h)

/-- Every function, called as the clients promise, keeps the invariant of `m`. -/
theorem wp_body (hinit : c ≠ .init (some m)) (hdestroy : c ≠ .destroy (some m))
    (hunlock : c = .unlock (some m) → held = true) :
    Safe w m t id c ((spinSys M w τ).body c) ((outline w m).Final t id c)
      ⟨held, Inv.hasAfter m c held, none⟩ := by
  refine Outline.Wp.bind ?_
  cases c with
  | init mutex =>
      cases mutex with
      | none => exact final_of_other nofun
      | some m' =>
          have hm : m' ≠ m := fun h => hinit (by rw [h])
          refine wp_store hm (Or.inl rfl) fun _ => wp_store hm (Or.inr ⟨true, rfl⟩) fun _ => ?_
          exact final_of_other nofun
  | destroy mutex =>
      cases mutex with
      | none => exact final_of_other nofun
      | some m' =>
          have hm : m' ≠ m := fun h => hdestroy (by rw [h])
          refine wp_readInitialized fun ready _ => ?_
          cases ready with
          | false => exact final_of_other nofun
          | true =>
              refine wp_store hm (Or.inr ⟨false, rfl⟩) fun _ => ?_
              exact final_of_other nofun
  | lock mutex => exact wp_lock mutex
  | unlock mutex => exact wp_unlock mutex fun h => hunlock (by rw [h])
  | trylock mutex => exact wp_trylock mutex
  | isLocked mutex => exact wp_isLocked mutex

end Functions

/-! ### Runs -/

/-- After one `tt_mutex_init`, every reachable pool satisfies the invariant. -/
theorem inv_of_reach {m : M} {t₀ : τ} {s s₀ : M → SpinMutex w} {es : List (spinSig M w).Done}
    (hinit : (spinMachine M w τ).Run t₀ (ttMutexInit (some m)) s es .success s₀)
    {pl : Pool (spinSig M w) τ (M → SpinMutex w) (MutexCall M) TtVal}
    (h : (spinSys M w τ).Reach (Owned m) s₀ pl) : ∃ G, Inv m pl.view G := by
  have hs₀ : (s₀ m).initialized = true ∧ (s₀ m).lock = fun _ => 0 := by
    obtain ⟨_, _, _, _, hexec, -, hrun⟩ := (Machine.run_step_iff (fun _ => rfl)).mp hinit
    cases hexec
    obtain ⟨_, _, _, _, hexec, -, hrun⟩ := (Machine.run_step_iff (fun _ => rfl)).mp hrun
    cases hexec
    obtain ⟨-, -, rfl⟩ := Machine.run_ret_iff.mp hrun
    simp
  refine (Outline.sound (O := outline w m) ?_ ?_ h id).imp fun G hG => hG.1
  · refine ⟨fun _ => ⟨false, false, none⟩, ⟨hs₀.1, ?_, ?_, ?_, ?_, ?_, ?_, ?_, ?_⟩, fun _ => rfl⟩
    · intro t; simp
    · intro t; simp
    · intro t hne; simp at hne
    · intro t u ht; simp at ht
    · exact Or.inr ⟨by rw [View.start_shared, hs₀.2], fun _ => rfl⟩
    · intro i _; rw [View.start_shared, hs₀.2]
    · intro t id c p b hc; simp at hc
    · intro id t c a ha; simp at ha
  · intro v G t c _ hinv _ hidle hok _
    have hunlock : c = .unlock (some m) → (G t).held = true := by
      rintro rfl
      have hhas : has m v.trace t = true := hok rfl
      exact hinv.held_of_has (by rw [← hinv.has t]; exact hhas)
    refine ⟨_, hinv.call_keep t c hidle hunlock, ?_⟩
    rw [← show (G t).held = (G t).has from hidle]
    refine wp_body ?_ ?_ hunlock
    · rintro rfl
      exact hok rfl
    · rintro rfl
      exact hok rfl

/-- What a mutex is to the threads that use it. -/
structure Excludes (m : M) (v : SpinView M w τ) : Prop where
  /-- At most one thread holds it. -/
  one : ∀ t u, holds m v.trace t = true → holds m v.trace u = true → t = u
  /-- The lock word is not the null pointer exactly while somebody holds it. -/
  word : wordSet (v.shared m).lock = true ↔ ∃ t, holds m v.trace t = true
  /-- A lock or trylock that returned `TT_SUCCESS` has made its thread the holder, until the thread
  calls unlock. -/
  kept : ∀ t, has m v.trace t = true → holds m v.trace t = true
  /-- No other thread holds it, but within a lock or trylock that is yet to return or an unlock. -/
  only : ∀ t, holds m v.trace t = true →
    has m v.trace t = true ∨ ∃ id c, v.calls t = some (id, c) ∧ Moves m c
  /-- A lock returns `TT_SUCCESS`, having performed its test-and-set while nobody held it. -/
  locked : ∀ id t a, .ret id t (.lock (some m)) a ∈ v.trace → a = .err .success ∧
    At v.trace fun tr₁ e => (∃ r, e = .prim id t (.spinTestAndSet m) r) ∧
      ¬ ∃ u, holds m tr₁ u = true
  /-- An unlock returns `TT_SUCCESS`, having cleared what its thread held. -/
  unlocked : ∀ id t a, .ret id t (.unlock (some m)) a ∈ v.trace → a = .err .success ∧
    At v.trace fun tr₁ e => (∃ r, e = .prim id t (.clear m) r) ∧ holds m tr₁ t = true
  /-- A trylock returns `TT_ERROR_BUSY` exactly if somebody held it at its test-and-set. -/
  tried : ∀ id t a, .ret id t (.trylock (some m)) a ∈ v.trace →
    At v.trace fun tr₁ e => (∃ r, e = .prim id t (.testAndSet m) r) ∧
      (a = .err .busy ↔ ∃ u, holds m tr₁ u = true) ∧
      (a = .err .success ↔ ¬ ∃ u, holds m tr₁ u = true)
  /-- An `is_locked` returns true exactly if somebody held it at its load. -/
  asked : ∀ id t a, .ret id t (.isLocked (some m)) a ∈ v.trace →
    At v.trace fun tr₁ e => (∃ r, e = .prim id t (.load m) r) ∧
      (a = .bool true ↔ ∃ u, holds m tr₁ u = true)

theorem Inv.excludes {m : M} {v : SpinView M w τ} {G : τ → Ghost M} (h : Inv m v G) :
    Excludes m v := by
  refine ⟨?_, ?_, ?_, ?_, ?_, ?_, ?_, ?_⟩
  · intro t u ht hu
    rw [h.held] at ht hu
    exact h.one t u ht hu
  · simp only [wordSet_eq h.rest, h.held]
    rcases h.byte with ⟨hset, hsome⟩ | ⟨hclear, hnone⟩
    · simpa [hset, setByte] using hsome
    · simp [hclear, hnone]
  · intro t ht
    rw [h.has] at ht
    rw [h.held]
    exact h.held_of_has ht
  · intro t ht
    rw [h.held] at ht
    rw [h.has]
    by_cases hhas : (G t).has = true
    · exact Or.inl hhas
    · refine Or.inr (h.midway t fun heq => hhas ?_).2
      rw [← heq]
      exact ht
  · intro id t a ha
    obtain ⟨p, b, ⟨rfl, rfl, rfl⟩, hb⟩ := h.told id t _ a ha rfl
    refine ⟨rfl, hb.mono fun tr₁ e he => ⟨he.1, ?_⟩⟩
    rw [← he.2.1]
    exact Bool.false_ne_true
  · intro id t a ha
    obtain ⟨p, b, ⟨rfl, rfl⟩, hb⟩ := h.told id t _ a ha rfl
    exact ⟨rfl, hb.mono fun tr₁ e he => ⟨he.1, he.2.2 rfl⟩⟩
  · intro id t a ha
    obtain ⟨p, b, ⟨rfl, rfl⟩, hb⟩ := h.told id t _ a ha rfl
    refine hb.mono fun tr₁ e he => ⟨he.1, ?_, ?_⟩
    · rw [← he.2.1]
      cases b <;> simp
    · rw [← he.2.1]
      cases b <;> simp
  · intro id t a ha
    obtain ⟨p, b, ⟨rfl, rfl⟩, hb⟩ := h.told id t _ a ha rfl
    refine hb.mono fun tr₁ e he => ⟨he.1, ?_⟩
    rw [← he.2.1]
    simp

end SpinMutex

/--
**The generic spinlock excludes.**  After one `tt_mutex_init` of `m`, in every
interleaving of clients that call unlock only while they have `m`, at most one thread
holds `m` and the lock word is non-null exactly while somebody does.  A thread to which
a lock or trylock returned `TT_SUCCESS` holds `m` until it calls unlock, and no other
thread does, but in the middle of such a call.  What each call returns is what it found
at its own step: a `tt_mutex_trylock` busy exactly if somebody held `m` at its
test-and-set, a `tt_mutex_is_locked` true exactly if somebody held `m` at its load.
-/
theorem ttMutex_excludes {M τ : Type} [DecidableEq M] [DecidableEq τ] {w : Nat} {m : M} {t₀ : τ}
    {s s₀ : M → SpinMutex w} {es : List (spinSig M w).Done}
    (hinit : (spinMachine M w τ).Run t₀ (ttMutexInit (some m)) s es .success s₀)
    {pl : Pool (spinSig M w) τ (M → SpinMutex w) (MutexCall M) TtVal}
    (h : (spinSys M w τ).Reach (SpinMutex.Owned m) s₀ pl) : SpinMutex.Excludes m pl.view := by
  obtain ⟨G, hinv⟩ := SpinMutex.inv_of_reach hinit h
  exact hinv.excludes

/-- Two threads on a mutex with an 8-byte pointer: the second finds it held by the first, and
gets it once the first has given it up. -/
theorem ttMutex_excludes_contended :
    ∃ pl, (spinSys Unit 7 Nat).Reach (SpinMutex.Owned ()) (fun _ => ⟨fun _ => 0, true⟩) pl ∧
      .ret 1 1 (.trylock (some ())) (.err .busy) ∈ pl.view.trace ∧
      .ret 2 0 (.unlock (some ())) (.err .success) ∈ pl.view.trace ∧
      SpinMutex.has () pl.view.trace 1 = true ∧ SpinMutex.has () pl.view.trace 0 = false ∧
      SpinMutex.Excludes () pl.view := by
  have hinit : (spinMachine Unit 7 Nat).Run 0 (ttMutexInit (some ()))
      (fun _ => ⟨fun _ => 0, false⟩) [⟨.storeUnlocked (), ()⟩, ⟨.writeInitialized () true, ()⟩]
      .success (fun _ => ⟨fun _ => 0, true⟩) :=
    .step () rfl rfl (.step () rfl rfl (.ret _ _))
  have hrun : ((spinSys Unit 7 Nat).run (SpinMutex.Owned ())
      [.call 0 (.lock (some ())), .prim 0 (), .call 1 (.trylock (some ())), .prim 0 (),
        .prim 1 (), .prim 1 (), .ret 0, .ret 1,
        .call 0 (.unlock (some ())), .call 1 (.lock (some ())), .prim 1 (), .prim 1 (), .prim 0 (),
        .prim 0 (), .prim 1 (), .ret 0, .ret 1]
      (Sys.start fun _ => ⟨fun _ => 0, true⟩)).isSome = true := rfl
  have hreach := Sys.Reach.run _ .start (Option.some_get hrun).symm
  exact ⟨_, hreach, List.mem_of_getElem? (i := 7) rfl, List.mem_of_getElem? (i := 15) rfl, rfl, rfl,
    ttMutex_excludes hinit hreach⟩

end TinyTools
