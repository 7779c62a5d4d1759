/-
Initialising the error context under contention, on Linux.

`tt_error_init` looks at `initialized`, allocates a mutex object and stores its
address, and only then sets `initialized`; nothing protects the steps in between.  A
second `tt_error_init` that looked before the first one was done replaces the pointer
under whoever is using the first object: two threads are in the critical section at
once, an unlock releases somebody else's lock, and an error already recorded is
cleared.

That is the only way it goes wrong.  As long as no call finds `initialized` false
while another that found it false is still running, whoever found `initialized` true
relies on facts that no step changes any more: the pointer, and that it points to a
live object.  A thread's ghost says which of these facts it has seen, or how far it
is with initialising.
-/
import TinyTools.Lib.Outline
import TinyTools.Error

namespace TinyTools

open Interleave

namespace ErrorInit

variable {F τ : Type} [DecidableEq τ]

abbrev ErrorState (F τ : Type) := TtErrorContext F × LinuxMutexes Unit τ

abbrev ErrorEvent (F τ : Type) := Event (errorLinuxSig F) τ (ErrorCall F) TtVal

abbrev ErrorView (F τ : Type) := View (errorLinuxSig F) τ (ErrorState F τ) (ErrorCall F) TtVal

/-! ### What a trace shows -/

/-- One event, as it changes the object on which `t` is in its critical section. -/
def sectionStep (t : τ) (sec : Option Addr) : ErrorEvent F τ → Option Addr
  | .prim _ u (.inr (.pthreadMutexLock p)) ok => if u = t ∧ ok = true then p else sec
  | .prim _ u (.inr (.pthreadMutexUnlock _)) _ => if u = t then none else sec
  | _ => sec

/-- The object `t` has locked and not come to unlock since. -/
def sectionOf (tr : List (ErrorEvent F τ)) (t : τ) : Option Addr := tr.foldl (sectionStep t) none

@[simp] theorem sectionOf_nil (t : τ) : sectionOf ([] : List (ErrorEvent F τ)) t = none := rfl

@[simp] theorem sectionOf_snoc (tr : List (ErrorEvent F τ)) (e : ErrorEvent F τ) (t : τ) :
    sectionOf (tr ++ [e]) t = sectionStep t (sectionOf tr t) e := by
  simp [sectionOf]

/-- At most one thread is in its critical section. -/
def Exclusive (tr : List (ErrorEvent F τ)) : Prop :=
  ∀ t u o o', sectionOf tr t = some o → sectionOf tr u = some o' → t = u

/-- Every unlock acts on the object its thread has locked. -/
def SameObject (tr : List (ErrorEvent F τ)) : Prop :=
  Always tr fun tr₁ e => ∀ id t p ok, e = .prim id t (.inr (.pthreadMutexUnlock p)) ok →
    ∃ o, p = some o ∧ sectionOf tr₁ t = some o

/-- Call `id` writes `last_error` or `callback`. -/
def Resets (e : ErrorEvent F τ) (id : Nat) : Prop :=
  (∃ t x, e = .prim id t (.inl (.writeLastError x)) ()) ∨
    ∃ t f, e = .prim id t (.inl (.writeCallback f)) ()

/-- After a `tt_error_init` that returned success, no `tt_error_init` resets the context. -/
def NoReset (tr : List (ErrorEvent F τ)) : Prop :=
  Always tr fun tr₁ e => ∀ id id' t u, Resets e id → .call id t .init ∈ tr₁ →
    .ret id' u .init (.err .success) ∉ tr₁

/-- Call `id` is a `tt_error_init` that found `initialized` false and has not returned. -/
def Initialising (tr : List (ErrorEvent F τ)) (id : Nat) : Prop :=
  (∃ t, .call id t .init ∈ tr) ∧ (∃ t, .prim id t (.inl .readInitialized) false ∈ tr) ∧
    ∀ t c a, .ret id t c a ∉ tr

omit [DecidableEq τ] in
theorem Initialising.snoc {tr : List (ErrorEvent F τ)} {e : ErrorEvent F τ} {id : Nat}
    (h : Initialising tr id) (he : ∀ t c a, e ≠ .ret id t c a) : Initialising (tr ++ [e]) id := by
  obtain ⟨⟨t₁, h₁⟩, ⟨t₂, h₂⟩, h₃⟩ := h
  refine ⟨⟨t₁, List.mem_append_left _ h₁⟩, ⟨t₂, List.mem_append_left _ h₂⟩, ?_⟩
  intro t c a hret
  rcases List.mem_append.mp hret with hold | hlast
  · exact h₃ t c a hold
  · exact he t c a (List.mem_singleton.mp hlast).symm

/-- A `tt_error_init` has found `initialized` false while another was initialising. -/
def Raced (tr : List (ErrorEvent F τ)) : Prop :=
  At tr fun tr₁ e => ∃ id t, e = .prim id t (.inl .readInitialized) false ∧
    .call id t .init ∈ tr₁ ∧ ∃ id', id' ≠ id ∧ Initialising tr₁ id'

/-! ### The invariant -/

/-- What a thread relies on, besides what everyone knows. -/
inductive Ghost : Type
  | idle
  /-- It found the context initialised, with this object. -/
  | aware (o : Addr)
  | inside (o : Addr)
  /-- It found `initialized` false; then, how far it has come. -/
  | starting
  | allocated (o : Addr)
  | made (o : Addr)
  | placed (o : Addr)
  | marked (o : Addr)
  | finished

namespace Ghost

/-- The object on which the thread is in its critical section. -/
def sect : Ghost → Option Addr
  | .inside o => some o
  | _ => none

/-- The thread is in a `tt_error_init` that found `initialized` false. -/
def initial : Ghost → Bool
  | .idle | .aware _ | .inside _ => false
  | .starting | .allocated _ | .made _ | .placed _ | .marked _ | .finished => true

end Ghost

/-- The context is initialised, its mutex being the live object `o`. -/
structure Live (s : ErrorState F τ) (o : Addr) : Prop where
  initialized : s.1.initialized = true
  lock : (s.2.mutex ()).lock = some o
  marked : (s.2.mutex ()).initialized = true
  ready : ∃ h, s.2.object o = some (.ready h)

/-- What a ghost says of the state. -/
def Knows (s : ErrorState F τ) (t : τ) : Ghost → Prop
  | .idle => True
  | .aware o => Live s o
  | .inside o => Live s o ∧ s.2.object o = some (.ready (some t))
  | .starting => s.1.initialized = false
  | .allocated o => s.1.initialized = false ∧ s.2.object o = some .raw
  | .made o => s.1.initialized = false ∧ s.2.object o = some (.ready none)
  | .placed o => s.1.initialized = false ∧ s.2.object o = some (.ready none) ∧
      (s.2.mutex ()).lock = some o
  | .marked o => s.1.initialized = false ∧ s.2.object o = some (.ready none) ∧
      (s.2.mutex ()).lock = some o ∧ (s.2.mutex ()).initialized = true
  | .finished => s.1.initialized = true

structure Inv (v : ErrorView F τ) (G : τ → Ghost) : Prop where
  knows : ∀ t, Knows v.shared t (G t)
  live : v.shared.1.initialized = true → ∃ o, Live v.shared o
  sect : ∀ t, sectionOf v.trace t = (G t).sect
  initial : ∀ t, (G t).initial = true →
    ∃ id, v.calls t = some (id, .init) ∧ Initialising v.trace id
  unique : ∀ t u, (G t).initial = true → (G u).initial = true → t = u
  success : ∀ id t, .ret id t .init (.err .success) ∈ v.trace → v.shared.1.initialized = true
  same : SameObject v.trace
  noReset : NoReset v.trace

/-- The invariant, followed until a race; a primitive about to be performed has an outcome. -/
def outline (F τ : Type) [DecidableEq τ] :
    Outline (errorLinuxSig F) τ (ErrorState F τ) (ErrorCall F) TtVal Ghost where
  idle g := g = .idle
  inv := Inv
  pre v t p := ∃ x, ((errorLinuxSys F τ).exec x t p v.shared).isSome = true
  stop := Raced
  stop_snoc _ e h := h.snoc e

/-- Nobody initialises once the context is initialised, up to the one who did. -/
theorem Inv.others_idle {v : ErrorView F τ} {G : τ → Ghost} (h : Inv v G) {t : τ}
    (ht : (G t).initial = true) (hfalse : v.shared.1.initialized = false) {u : τ} (hu : u ≠ t) :
    G u = .idle := by
  have hninitial : (G u).initial ≠ true := fun hui => hu (h.unique u t hui ht)
  have hk := h.knows u
  cases hgu : G u with
  | idle => rfl
  | aware o =>
      rw [hgu] at hk
      exact absurd (hfalse.symm.trans hk.initialized) Bool.false_ne_true
  | inside o =>
      rw [hgu] at hk
      exact absurd (hfalse.symm.trans hk.1.initialized) Bool.false_ne_true
  | starting => exact absurd (by rw [hgu]; rfl) hninitial
  | allocated o => exact absurd (by rw [hgu]; rfl) hninitial
  | made o => exact absurd (by rw [hgu]; rfl) hninitial
  | placed o => exact absurd (by rw [hgu]; rfl) hninitial
  | marked o => exact absurd (by rw [hgu]; rfl) hninitial
  | finished => exact absurd (by rw [hgu]; rfl) hninitial

omit [DecidableEq τ] in
theorem Live.unique {s : ErrorState F τ} {o o' : Addr} (h : Live s o) (h' : Live s o') :
    o = o' := by
  have hlock := h.lock.symm.trans h'.lock
  exact Option.some.inj hlock

/-- Two threads inside are one: they know the same object, and it has one holder. -/
theorem Inv.exclusive {v : ErrorView F τ} {G : τ → Ghost} (h : Inv v G) : Exclusive v.trace := by
  have hinside : ∀ t o, sectionOf v.trace t = some o →
      Live v.shared o ∧ v.shared.2.object o = some (.ready (some t)) := by
    intro t o ht
    rw [h.sect] at ht
    have hk := h.knows t
    cases hg : G t with
    | inside o' =>
        rw [hg] at ht hk
        have ho : o' = o := Option.some.inj ht
        subst ho
        exact hk
    | _ =>
        rw [hg] at ht
        cases ht
  intro t u o o' ht hu
  obtain ⟨hlive, hheld⟩ := hinside t o ht
  obtain ⟨hlive', hheld'⟩ := hinside u o' hu
  have ho := hlive.unique hlive'
  subst ho
  have heq := hheld.symm.trans hheld'
  simpa using heq

/-! ### One step -/

/-- What a thread does leaves the critical sections of the others alone. -/
theorem sectionStep_of_ne {t u : τ} (hu : u ≠ t) {sec : Option Addr} {id : Nat}
    {p : (errorLinuxSig F).Op} {r : (errorLinuxSig F).Res p} :
    sectionStep u sec (.prim id t p r : ErrorEvent F τ) = sec := by
  unfold sectionStep
  split
  · rename_i heq
    cases heq
    rw [if_neg (fun hand => hu hand.1.symm)]
  · rename_i heq
    cases heq
    rw [if_neg (Ne.symm hu)]
  · rfl

/-- Nobody else initialises beside the thread that has a new ghost. -/
theorem Inv.unique_update {v : ErrorView F τ} {G : τ → Ghost} (h : Inv v G) {t : τ} {g : Ghost}
    (hg : g.initial = true → ∀ u, u ≠ t → (G u).initial = false) :
    ∀ u₁ u₂, (Function.update G t g u₁).initial = true →
      (Function.update G t g u₂).initial = true → u₁ = u₂ := by
  intro u₁ u₂ h₁ h₂
  by_cases hu₁ : u₁ = t
  · by_cases hu₂ : u₂ = t
    · exact hu₁.trans hu₂.symm
    · subst hu₁
      rw [Function.update_self] at h₁
      rw [Function.update_of_ne hu₂, hg h₁ u₂ hu₂] at h₂
      cases h₂
  · rw [Function.update_of_ne hu₁] at h₁
    by_cases hu₂ : u₂ = t
    · subst hu₂
      rw [Function.update_self] at h₂
      rw [hg h₂ u₁ hu₁] at h₁
      cases h₁
    · rw [Function.update_of_ne hu₂] at h₂
      exact h.unique u₁ u₂ h₁ h₂

/-- A primitive and its thread's new ghost, checked against what the others rely on. -/
theorem Inv.prim {v : ErrorView F τ} {G : τ → Ghost} (h : Inv v G) {id : Nat} {t : τ}
    {c : ErrorCall F} {p : (errorLinuxSig F).Op} {r : (errorLinuxSig F).Res p}
    {s : ErrorState F τ} {g : Ghost} (hb : Books v) (hc : v.calls t = some (id, c))
    (hothers : ∀ u, u ≠ t → Knows s u (G u)) (hself : Knows s t g)
    (hlive : s.1.initialized = true → ∃ o, Live s o)
    (hmono : v.shared.1.initialized = true → s.1.initialized = true)
    (hsect : sectionStep t (G t).sect (.prim id t p r : ErrorEvent F τ) = g.sect)
    (hinitial : g.initial = true → (∀ u, u ≠ t → (G u).initial = false) ∧ c = .init ∧
      Initialising (v.trace ++ [.prim id t p r]) id)
    (hsame : ∀ q, p = .inr (.pthreadMutexUnlock q) → ∃ o, q = some o ∧ (G t).sect = some o)
    (hreset : Resets (.prim id t p r : ErrorEvent F τ) id → c = .init →
      v.shared.1.initialized = false) :
    Inv (v.prim id t p r s) (Function.update G t g) := by
  refine ⟨?_, hlive, ?_, ?_, ?_, ?_, ?_, ?_⟩
  · exact (Function.forall_update_iff _ _).mpr ⟨hself, hothers⟩
  · intro u
    rw [View.prim_trace, sectionOf_snoc, h.sect u]
    by_cases hu : u = t
    · subst hu
      simpa using hsect
    · rw [Function.update_of_ne hu, sectionStep_of_ne hu]
  · intro u hu
    by_cases hut : u = t
    · subst hut
      rw [Function.update_self] at hu
      obtain ⟨-, rfl, hi⟩ := hinitial hu
      exact ⟨id, hc, hi⟩
    · rw [Function.update_of_ne hut] at hu
      obtain ⟨id', hc', hi⟩ := h.initial u hu
      exact ⟨id', hc', hi.snoc (by rintro _ _ _ ⟨⟩)⟩
  · exact h.unique_update fun hg => (hinitial hg).1
  · intro id' u hret
    exact hmono (h.success id' u (by simpa using hret))
  · refine h.same.snoc ?_
    intro id' u q ok he
    cases he
    obtain ⟨o, hq, ho⟩ := hsame q rfl
    exact ⟨o, hq, (h.sect t).trans ho⟩
  · refine h.noReset.snoc ?_
    intro id' id'' u u' hresets hcall hret
    have hid : id' = id := by
      rcases hresets with ⟨_, _, he⟩ | ⟨_, _, he⟩
      · cases he; rfl
      · cases he; rfl
    subst hid
    have hinit : c = .init := (hb.once id' t u c .init (hb.called t id' c hc) hcall).2
    have hfalse := hreset hresets hinit
    rw [h.success id'' u' hret] at hfalse
    cases hfalse

/-- Not `pthread_mutex_lock`, not `pthread_mutex_unlock`. -/
def lockFree : (errorLinuxSig F).Op → Bool
  | .inr (.pthreadMutexLock _) | .inr (.pthreadMutexUnlock _) => false
  | _ => true

/-- The other primitives leave critical sections alone. -/
theorem sectionStep_of_lockFree {t : τ} {sec : Option Addr} {id : Nat} {p : (errorLinuxSig F).Op}
    {r : (errorLinuxSig F).Res p} (hp : lockFree p = true) :
    sectionStep t sec (.prim id t p r : ErrorEvent F τ) = sec := by
  unfold sectionStep
  split
  · rename_i heq
    cases heq
    cases hp
  · rename_i heq
    cases heq
    cases hp
  · rfl

/-- A thread still initialising after a primitive was so before. -/
theorem Inv.initialising {v : ErrorView F τ} {G : τ → Ghost} (h : Inv v G) {id : Nat} {t : τ}
    {c : ErrorCall F} (hc : v.calls t = some (id, c)) (ht : (G t).initial = true)
    (p : (errorLinuxSig F).Op) (r : (errorLinuxSig F).Res p) :
    (∀ u, u ≠ t → (G u).initial = false) ∧ c = .init ∧
      Initialising (v.trace ++ [.prim id t p r]) id := by
  obtain ⟨id', hc', hi⟩ := h.initial t ht
  rw [hc] at hc'
  cases hc'
  refine ⟨?_, rfl, hi.snoc (by rintro _ _ _ ⟨⟩)⟩
  intro u hu
  cases hui : (G u).initial with
  | false => rfl
  | true => exact absurd (h.unique u t hui ht) hu

omit [DecidableEq τ] in
/-- Ghosts speak of `initialized` and of the mutexes only. -/
theorem Live.congr {s s' : ErrorState F τ} (hi : s'.1.initialized = s.1.initialized)
    (hm : s'.2 = s.2) {o : Addr} (h : Live s o) : Live s' o := by
  refine ⟨hi.trans h.initialized, ?_, ?_, ?_⟩
  · rw [hm]; exact h.lock
  · rw [hm]; exact h.marked
  · rw [hm]; exact h.ready

omit [DecidableEq τ] in
theorem Knows.congr {s s' : ErrorState F τ} (hi : s'.1.initialized = s.1.initialized)
    (hm : s'.2 = s.2) {t : τ} {g : Ghost} (h : Knows s t g) : Knows s' t g := by
  cases g with
  | idle => trivial
  | aware o => exact Live.congr hi hm h
  | inside o => exact ⟨h.1.congr hi hm, by rw [hm]; exact h.2⟩
  | _ =>
      unfold Knows at h ⊢
      rw [hi, hm]
      exact h

end ErrorInit

end TinyTools
