/-
Who owns which pthread mutex object.

Called one at a time on zero-initialised mutexes, the Linux functions keep allocated
objects and mutexes with `initialized` set in one-to-one correspondence, through
every one of their failure exits, as long as two things do not happen that the code
does not look out for: `tt_mutex_init` storing a new object into a mutex that has
one, and `tt_mutex_destroy` on a mutex that has none.

Between two calls the state is `Settled`.  Inside a call it is settled up to one
object, and the ghost of the running thread says which.
-/
import TinyTools.Lib.Outline
import TinyTools.Platform.Linux.Mutex

namespace TinyTools

open Interleave

namespace MutexObjects

variable {M τ : Type}

abbrev MutexEvent (M : Type) (τ : Type) := Event (linuxMutexSig M) τ (MutexCall M) TtVal

abbrev MutexView (M τ : Type) :=
  View (linuxMutexSig M) τ (LinuxMutexes M τ) (MutexCall M) TtVal

/-- Mutex `m` is initialised and points to the object at `a`. -/
def Owns (s : LinuxMutexes M τ) (m : M) (a : Addr) : Prop :=
  (s.mutex m).initialized = true ∧ (s.mutex m).lock = some a

/-- Every mutex that is initialised owns a pthread mutex of its own, and nothing else is allocated. -/
structure Settled (s : LinuxMutexes M τ) : Prop where
  live : ∀ m, (s.mutex m).initialized = true → ∃ a h, Owns s m a ∧ s.object a = some (.ready h)
  apart : ∀ m m' a, Owns s m a → Owns s m' a → m = m'
  owned : ∀ a o, s.object a = some o → ∃ m, Owns s m a

/-- What a step acts on is live: memory that is allocated, or an initialised pthread mutex. -/
def OnLive (s : LinuxMutexes M τ) : LinuxMutexOp M → Prop
  | .free p | .pthreadMutexInit p => ∃ a, p = some a ∧ s.object a = some .raw
  | .pthreadMutexDestroy p | .pthreadMutexLock p | .pthreadMutexUnlock p | .pthreadMutexTrylock p =>
      ∃ a h, p = some a ∧ s.object a = some (.ready h)
  | _ => True

/-! ### What a trace shows -/

variable [DecidableEq M]

/-- `initialized` of mutex `m`, false at the start of the trace. -/
def flag (tr : List (MutexEvent M τ)) (m : M) : Bool :=
  tr.foldl (fun b e =>
    match e with
    | .prim _ _ (.writeInitialized m' b') _ => if m' = m then b' else b
    | _ => b) false

/-- `tt_mutex_init` has stored an object into a mutex that was initialised, or `tt_mutex_destroy`
was called on one that was not. -/
def Misused (tr : List (MutexEvent M τ)) : Prop :=
  At tr fun tr₁ e => ∃ id t m,
    (∃ lock, e = .prim id t (.writeLock m lock) () ∧ flag tr₁ m = true) ∨
      (e = .call id t (.destroy (some m)) ∧ flag tr₁ m = false)

/-- Calls do not overlap. -/
abbrev OneAtATime (v : MutexView M τ) (_ : τ) (_ : MutexCall M) : Prop := ∀ u, v.calls u = none

@[simp] theorem flag_snoc (tr : List (MutexEvent M τ)) (e : MutexEvent M τ) (m : M) :
    flag (tr ++ [e]) m =
      match e with
      | .prim _ _ (.writeInitialized m' b) _ => if m' = m then b else flag tr m
      | _ => flag tr m := by
  unfold flag
  rw [List.foldl_append, List.foldl_cons, List.foldl_nil]

/-! ### Settled states -/

section Settled

variable {s : LinuxMutexes M τ} {m : M} {a : Addr}

omit [DecidableEq M] in
theorem Owns.unique {a' : Addr} (h : Owns s m a) (h' : Owns s m a') : a = a' :=
  Option.some.inj (h.2.symm.trans h'.2)

omit [DecidableEq M] in
/-- What is owned is an initialised pthread mutex. -/
theorem Settled.ready (hs : Settled s) (h : Owns s m a) : ∃ n, s.object a = some (.ready n) := by
  obtain ⟨a', n, h', hobject⟩ := hs.live m h.1
  rw [h.unique h']
  exact ⟨n, hobject⟩

omit [DecidableEq M] in
/-- Who holds an object does not matter. -/
theorem Settled.setHolder (hs : Settled s) {n : Option τ} (hready : s.object a = some (.ready n))
    (n' : Option τ) : Settled (s.setObject a (some (.ready n'))) := by
  refine ⟨?_, hs.apart, ?_⟩
  · intro m hm
    obtain ⟨a', n₁, howns, hobject⟩ := hs.live m hm
    by_cases ha : a' = a
    · exact ⟨a', n', howns, by simp [ha]⟩
    · exact ⟨a', n₁, howns, by simpa [ha] using hobject⟩
  · intro a' o ho
    by_cases ha : a' = a
    · rw [ha]
      exact hs.owned a _ hready
    · exact hs.owned a' o (by simpa [ha] using ho)

/-- The pointer of a mutex that is not initialised does not matter. -/
theorem Settled.setLock (hs : Settled s) (hm : (s.mutex m).initialized = false)
    (lock : Option Addr) : Settled (s.setMutex m { s.mutex m with lock := lock }) := by
  have hinit : ∀ m', ((s.setMutex m { s.mutex m with lock := lock }).mutex m').initialized =
      (s.mutex m').initialized := by
    intro m'
    by_cases heq : m' = m <;> simp [heq]
  have howns : ∀ m' a', Owns (s.setMutex m { s.mutex m with lock := lock }) m' a' ↔ Owns s m' a' := by
    intro m' a'
    unfold Owns
    rw [hinit]
    by_cases heq : m' = m
    · simp [heq, hm]
    · simp [heq]
  refine ⟨?_, ?_, ?_⟩
  · intro m' hm'
    rw [hinit] at hm'
    obtain ⟨a', n, ho, hobject⟩ := hs.live m' hm'
    exact ⟨a', n, (howns m' a').mpr ho, hobject⟩
  · intro m₁ m₂ a' h₁ h₂
    exact hs.apart m₁ m₂ a' ((howns m₁ a').mp h₁) ((howns m₂ a').mp h₂)
  · intro a' o ho
    obtain ⟨m', ho'⟩ := hs.owned a' o ho
    exact ⟨m', (howns m' a').mpr ho'⟩

/-- A mutex comes to own the one object that nobody owned. -/
theorem Settled.acquire (hs : Settled (s.setObject a none)) (hm : (s.mutex m).initialized = false)
    (hlock : (s.mutex m).lock = some a) {n : Option τ} (hready : s.object a = some (.ready n)) :
    Settled (s.setMutex m { s.mutex m with initialized := true }) := by
  have howns : ∀ m' a', Owns (s.setMutex m { s.mutex m with initialized := true }) m' a' ↔
      (m' = m ∧ a' = a) ∨ Owns s m' a' := by
    intro m' a'
    unfold Owns
    by_cases heq : m' = m
    · simp [heq, hm, hlock, eq_comm]
    · simp [heq]
  have hother : ∀ m' a', Owns s m' a' → a' ≠ a := by
    intro m' a' ho heq
    obtain ⟨n', hnone⟩ := hs.ready (m := m') (a := a') ho
    simp [heq] at hnone
  refine ⟨?_, ?_, ?_⟩
  · intro m' hm'
    by_cases heq : m' = m
    · exact ⟨a, n, (howns m' a).mpr (Or.inl ⟨heq, rfl⟩), hready⟩
    · obtain ⟨a', n', ho, hobject⟩ := hs.live m' (by simpa [heq] using hm')
      exact ⟨a', n', (howns m' a').mpr (Or.inr ho),
        by simpa [hother m' a' ho] using hobject⟩
  · intro m₁ m₂ a' h₁ h₂
    rcases (howns m₁ a').mp h₁ with ⟨h₁, ha⟩ | ho₁
    · rcases (howns m₂ a').mp h₂ with ⟨h₂, -⟩ | ho₂
      · rw [h₁, h₂]
      · exact absurd ha (hother m₂ a' ho₂)
    · rcases (howns m₂ a').mp h₂ with ⟨-, ha⟩ | ho₂
      · exact absurd ha (hother m₁ a' ho₁)
      · exact hs.apart m₁ m₂ a' ho₁ ho₂
  · intro a' o ho
    by_cases ha : a' = a
    · exact ⟨m, (howns m a').mpr (Or.inl ⟨rfl, ha⟩)⟩
    · obtain ⟨m', ho'⟩ := hs.owned a' o (by simpa [ha] using ho)
      exact ⟨m', (howns m' a').mpr (Or.inr ho')⟩

/-- A mutex gives up its object, and both go. -/
theorem Settled.release (hs : Settled s) (hm : Owns s m a) :
    Settled ((s.setMutex m { s.mutex m with initialized := false }).setObject a none) := by
  have howns : ∀ m' a',
      Owns ((s.setMutex m { s.mutex m with initialized := false }).setObject a none) m' a' ↔
        m' ≠ m ∧ Owns s m' a' := by
    intro m' a'
    unfold Owns
    by_cases heq : m' = m <;> simp [heq]
  have hother : ∀ m' a', m' ≠ m → Owns s m' a' → a' ≠ a := by
    intro m' a' hne ho heq
    subst heq
    exact hne (hs.apart m' m a' ho hm)
  refine ⟨?_, ?_, ?_⟩
  · intro m' hm'
    have hne : m' ≠ m := by
      intro heq
      simp [heq] at hm'
    obtain ⟨a', n, ho, hobject⟩ := hs.live m'
      (by simpa [hne] using hm')
    exact ⟨a', n, (howns m' a').mpr ⟨hne, ho⟩, by
      simpa [hother m' a' hne ho] using hobject⟩
  · intro m₁ m₂ a' h₁ h₂
    exact hs.apart m₁ m₂ a' ((howns m₁ a').mp h₁).2 ((howns m₂ a').mp h₂).2
  · intro a' o ho
    have ha : a' ≠ a := by
      intro heq
      simp [heq] at ho
    obtain ⟨m', ho'⟩ := hs.owned a' o
      (by simpa [ha] using ho)
    refine ⟨m', (howns m' a').mpr ⟨?_, ho'⟩⟩
    intro heq
    subst heq
    exact ha (ho'.unique hm)

end Settled

/-! ### The invariant -/

/-- Where the running call stands. -/
inductive Ghost (M : Type) : Type
  | idle
  /-- The mutex is initialised; it points to this object. -/
  | marked (m : M)
  | found (m : M) (a : Addr)
  /-- Initialising: an object nobody owns, which the mutex comes to point to. -/
  | allocated (a : Addr)
  | made (a : Addr)
  | placed (m : M) (a : Addr)
  /-- Destroying: the object is no pthread mutex any more, and then it is freed. -/
  | undone (m : M) (a : Addr)
  | freed (m : M)

/-- The state inside a call. -/
def Mid (s : LinuxMutexes M τ) : Ghost M → Prop
  | .idle => Settled s
  | .marked m => Settled s ∧ (s.mutex m).initialized = true
  | .found m a => Settled s ∧ Owns s m a
  | .allocated a => Settled (s.setObject a none) ∧ s.object a = some .raw
  | .made a => Settled (s.setObject a none) ∧ s.object a = some (.ready none)
  | .placed m a => Settled (s.setObject a none) ∧ s.object a = some (.ready none) ∧
      (s.mutex m).initialized = false ∧ (s.mutex m).lock = some a
  | .undone m a => s.object a = some .raw ∧
      Settled ((s.setMutex m { s.mutex m with initialized := false }).setObject a none)
  | .freed m => Settled (s.setMutex m { s.mutex m with initialized := false })

/-- Points at which a call may return. -/
def Ghost.rests : Ghost M → Bool
  | .idle | .marked _ | .found _ _ => true
  | .allocated _ | .made _ | .placed _ _ | .undone _ _ | .freed _ => false

theorem Mid.settled {s : LinuxMutexes M τ} {g : Ghost M} (h : Mid s g) (hg : g.rests = true) :
    Settled s := by
  cases g with
  | idle => exact h
  | marked m | found m a => exact h.1
  | _ => cases hg

structure Inv (v : MutexView M τ) (G : τ → Ghost M) : Prop where
  flags : ∀ m, flag v.trace m = (v.shared.mutex m).initialized
  /-- The one call in progress. -/
  mid : ∀ t id c, v.calls t = some (id, c) → (∀ u, u ≠ t → v.calls u = none) ∧ Mid v.shared (G t)
  settled : (∀ t, v.calls t = none) → Settled v.shared

def outline (M τ : Type) [DecidableEq M] :
    Outline (linuxMutexSig M) τ (LinuxMutexes M τ) (MutexCall M) TtVal (Ghost M) where
  idle _ := True
  inv := Inv
  pre v _ p := OnLive v.shared p
  stop := Misused
  stop_snoc _ e h := h.snoc e

/-- The trace and the state agree on the flags. -/
theorem flag_prim {x : LinuxChoice} {t : τ} {p : LinuxMutexOp M} {s s' : LinuxMutexes M τ}
    {r : p.Res} (hexec : linuxMutexExec x t p s = some (r, s')) {tr : List (MutexEvent M τ)} {m : M}
    (h : flag tr m = (s.mutex m).initialized) (id : Nat) :
    flag (tr ++ [.prim id t p r]) m = (s'.mutex m).initialized := by
  rw [flag_snoc]
  cases p with
  | writeInitialized m' b =>
      cases hexec
      by_cases hm : m' = m
      · simp [hm]
      · simp [hm, h, Function.update_of_ne (Ne.symm hm)]
  | writeLock m' lock =>
      cases hexec
      by_cases hm : m = m'
      · simp [← hm, h]
      · simp [hm, h]
  | _ =>
      rw [linuxMutexExec_mutex hexec nofun nofun]
      exact h

section Functions

variable [DecidableEq τ] {t : τ} {id : Nat} {c : MutexCall M} {β : Type} {Q : β → Ghost M → Prop}

/-- The program `m`, in call `c`, from ghost `g`. -/
abbrev Safe (t : τ) (id : Nat) (c : MutexCall M) (m : Prog (linuxMutexSig M) β)
    (Q : β → Ghost M → Prop) (g : Ghost M) : Prop :=
  (outline M τ).Wp (linuxMutexSys M τ).toMachine t id c m Q g

/-- One step of the running call. -/
theorem safe_step {p : LinuxMutexOp M} {k : p.Res → Prog (linuxMutexSig M) β} {g : Ghost M}
    (hpre : ∀ s : LinuxMutexes M τ, Mid s g → OnLive s p)
    (hk : ∀ x s r s', Mid s g → linuxMutexExec x t p s = some (r, s') →
      (∀ m lock, p = .writeLock m lock → (s.mutex m).initialized = false) →
      ∃ g', Mid s' g' ∧ Safe t id c (k r) Q g') :
    Safe t id c (.step p k) Q g := by
  refine Outline.Wp.step (fun _ _ => rfl) ?_
  intro v G hb hinv hgt hcall
  obtain ⟨hothers, hmid⟩ := hinv.mid t id c hcall
  rw [hgt] at hmid
  refine ⟨hpre v.shared hmid, ?_⟩
  intro x r s hexec hstop
  have hplace : ∀ m lock, p = .writeLock m lock → (v.shared.mutex m).initialized = false := by
    rintro m lock rfl
    cases hi : (v.shared.mutex m).initialized with
    | false => rfl
    | true =>
        exact absurd (At.last ⟨id, t, m, Or.inl ⟨lock, rfl, (hinv.flags m).trans hi⟩⟩) hstop
  obtain ⟨g', hmid', hrest⟩ := hk x v.shared r s hmid hexec hplace
  refine ⟨g', ⟨?_, ?_, ?_⟩, hrest⟩
  · intro m
    exact flag_prim hexec (hinv.flags m) id
  · intro u id' c' hu
    have hut : u = t := by
      by_contra hne
      exact absurd ((hothers u hne).symm.trans hu) nofun
    subst hut
    rw [Function.update_self]
    exact ⟨hothers, hmid'⟩
  · intro hnone
    rw [show v.calls t = none from hnone t] at hcall
    cases hcall

/-- A field of the mutex is read. -/
theorem safe_readInitialized {m : M} {k : Bool → Prog (linuxMutexSig M) β}
    (hfalse : Safe t id c (k false) Q .idle) (htrue : Safe t id c (k true) Q (.marked m)) :
    Safe t id c (.step (.readInitialized m) k) Q .idle := by
  refine safe_step (fun _ _ => trivial) ?_
  intro x s r s' hmid hexec _
  obtain ⟨rfl, rfl⟩ : (s.mutex m).initialized = r ∧ s = s' := by
    cases hexec
    exact ⟨rfl, rfl⟩
  cases hi : (s.mutex m).initialized with
  | false => exact ⟨.idle, hmid, hfalse⟩
  | true => exact ⟨.marked m, ⟨hmid, hi⟩, htrue⟩

theorem safe_readLock {m : M} {k : Option Addr → Prog (linuxMutexSig M) β}
    (hk : ∀ a, Safe t id c (k (some a)) Q (.found m a)) :
    Safe t id c (.step (.readLock m) k) Q (.marked m) := by
  refine safe_step (fun _ _ => trivial) ?_
  intro x s r s' hmid hexec _
  obtain ⟨a, n, howns, -⟩ := hmid.1.live m hmid.2
  obtain ⟨rfl, rfl⟩ : r = some a ∧ s' = s := by
    cases hexec
    exact ⟨howns.2, rfl⟩
  exact ⟨.found m a, ⟨hmid.1, howns⟩, hk a⟩

/-- What lock, unlock and trylock do to the object of the mutex: they change its holder at most. -/
theorem safe_on {m : M} {a : Addr} {p : LinuxMutexOp M} {k : p.Res → Prog (linuxMutexSig M) β}
    (hp : p = .pthreadMutexLock (some a) ∨ p = .pthreadMutexUnlock (some a) ∨
      p = .pthreadMutexTrylock (some a))
    (hk : ∀ r, Safe t id c (k r) Q (.found m a)) : Safe t id c (.step p k) Q (.found m a) := by
  refine safe_step ?_ ?_
  · intro s hmid
    obtain ⟨n, hready⟩ := hmid.1.ready hmid.2
    rcases hp with rfl | rfl | rfl <;> exact ⟨a, n, rfl, hready⟩
  · intro x s r s' hmid hexec _
    obtain ⟨n, hready⟩ := hmid.1.ready hmid.2
    have hs' : s' = s ∨ ∃ n', s' = s.setObject a (some (.ready n')) := by
      rcases hp with rfl | rfl | rfl
      · rcases linuxMutexExec_lock hready hexec with ⟨-, -, hs⟩ | ⟨-, hs⟩
        · exact Or.inr ⟨_, hs⟩
        · exact Or.inl hs
      · rcases linuxMutexExec_unlock hready hexec with ⟨-, hs⟩ | ⟨-, hs⟩
        · exact Or.inr ⟨_, hs⟩
        · exact Or.inl hs
      · rcases linuxMutexExec_trylock hready hexec with ⟨-, -, hs⟩ | ⟨-, hs⟩
        · exact Or.inr ⟨_, hs⟩
        · exact Or.inl hs
    refine ⟨.found m a, ?_, hk r⟩
    rcases hs' with rfl | ⟨n', rfl⟩
    · exact hmid
    · exact ⟨hmid.1.setHolder hready n', hmid.2⟩

theorem safe_init {Q : TtError → Ghost M → Prop} (hQ : ∀ e g, g.rests = true → Q e g)
    (mutex : Option M) : Safe t id c (ttPlatformMutexInit mutex) Q .idle := by
  cases mutex with
  | none => exact hQ _ _ rfl
  | some m =>
      refine safe_step (fun _ _ => trivial) ?_
      intro x s r s' hmid hexec _
      rcases linuxMutexExec_malloc hexec with ⟨a, hnone, rfl, rfl⟩ | ⟨rfl, rfl⟩
      swap
      · exact ⟨.idle, hmid, hQ _ _ rfl⟩
      refine ⟨.allocated a, ⟨?_, by simp⟩, ?_⟩
      · rw [LinuxMutexes.setObject_setObject, LinuxMutexes.setObject_eq_self hnone]
        exact hmid
      refine safe_step (fun s hs => ⟨a, rfl, hs.2⟩) ?_
      intro x s ok s' hmid hexec _
      rcases linuxMutexExec_init hmid.2 hexec with ⟨rfl, rfl⟩ | ⟨rfl, rfl⟩
      swap
      · refine ⟨.allocated a, hmid, safe_step (fun s hs => ⟨a, rfl, hs.2⟩) ?_⟩
        intro x s u s' hmid hexec _
        rw [linuxMutexExec_free hmid.2 hexec]
        exact ⟨.idle, hmid.1, hQ _ _ rfl⟩
      refine ⟨.made a, ⟨?_, by simp⟩, ?_⟩
      · rw [LinuxMutexes.setObject_setObject]
        exact hmid.1
      refine safe_step (fun _ _ => trivial) ?_
      intro x s u s' hmid hexec hplace
      have hm := hplace m (some a) rfl
      cases hexec
      refine ⟨.placed m a, ⟨hmid.1.setLock hm (some a), hmid.2, by simpa using hm, by simp⟩, ?_⟩
      refine safe_step (fun _ _ => trivial) ?_
      intro x s u s' hmid hexec _
      cases hexec
      exact ⟨.idle, hmid.1.acquire hmid.2.2.1 hmid.2.2.2 hmid.2.1, hQ _ _ rfl⟩

theorem safe_destroy {Q : TtError → Ghost M → Prop} (hQ : ∀ e g, g.rests = true → Q e g)
    (m : M) :
    Safe t id c (ttPlatformMutexDestroy (some m)) Q (.marked m) := by
  refine safe_readLock fun a => ?_
  refine safe_step ?_ ?_
  · intro s hmid
    obtain ⟨n, hready⟩ := hmid.1.ready hmid.2
    exact ⟨a, n, rfl, hready⟩
  intro x s ok s' hmid hexec _
  obtain ⟨n, hready⟩ := hmid.1.ready hmid.2
  rcases linuxMutexExec_destroy hready hexec with ⟨rfl, -, rfl⟩ | ⟨rfl, rfl⟩
  swap
  · exact ⟨.idle, hmid.1, hQ _ _ rfl⟩
  refine ⟨.undone m a, ⟨by simp, ?_⟩, ?_⟩
  · show Settled (((s.setMutex m { s.mutex m with initialized := false }).setObject a
      (some .raw)).setObject a none)
    rw [LinuxMutexes.setObject_setObject]
    exact hmid.1.release hmid.2
  refine safe_step (fun s hs => ⟨a, rfl, hs.1⟩) ?_
  intro x s u s' hmid hexec _
  rw [linuxMutexExec_free hmid.1 hexec]
  refine ⟨.freed m, hmid.2, ?_⟩
  refine safe_step (fun _ _ => trivial) ?_
  intro x s u s' hmid hexec _
  cases hexec
  exact ⟨.idle, hmid, hQ _ _ rfl⟩

/-- Lock, unlock and trylock. -/
theorem safe_ttPlatformMutexOn {call : Option Addr → Prog (linuxMutexSig M) Bool}
    {failed : TtError} {Q : TtError → Ghost M → Prop} (hQ : ∀ e g, g.rests = true → Q e g)
    (hcall : ∀ (Q' : Bool → Ghost M → Prop) m a, (∀ ok, Q' ok (.found m a)) →
      Safe t id c (call (some a)) Q' (.found m a)) (mutex : Option M) :
    Safe t id c (ttPlatformMutexOn call failed mutex) Q .idle := by
  cases mutex with
  | none => exact hQ _ _ rfl
  | some m =>
      refine safe_readInitialized (hQ _ _ rfl) (safe_readLock fun a => ?_)
      exact Outline.Wp.bind (hcall _ m a fun ok => hQ _ _ rfl)

theorem safe_isLocked {Q : Bool → Ghost M → Prop} (hQ : ∀ b g, g.rests = true → Q b g)
    (mutex : Option M) : Safe t id c (ttPlatformMutexIsLocked mutex) Q .idle := by
  cases mutex with
  | none => exact hQ _ _ rfl
  | some m =>
      refine safe_readInitialized (hQ _ _ rfl) (safe_readLock fun a => ?_)
      refine safe_on (Or.inr (Or.inr rfl)) fun taken => ?_
      cases taken with
      | false => exact hQ _ _ rfl
      | true => exact safe_on (Or.inr (Or.inl rfl)) fun _ => hQ _ _ rfl

theorem final_of_rests {a : TtVal} {g : Ghost M} (hg : g.rests = true) :
    (outline M τ).Final t id c a g := by
  intro v G hb hinv hgt hcall _
  obtain ⟨hothers, hmid⟩ := hinv.mid t id c hcall
  rw [hgt] at hmid
  refine ⟨.idle, trivial, ?_, ?_, fun _ => hmid.settled hg⟩
  · intro m
    rw [View.ret_trace, flag_snoc]
    exact hinv.flags m
  · intro u id' c' hu
    by_cases hut : u = t
    · simp [hut] at hu
    · rw [View.ret_calls, Function.update_of_ne hut, hothers u hut] at hu
      cases hu

/-- What a call starts from: `tt_mutex_destroy` is called on an initialised mutex. -/
def start : MutexCall M → Ghost M
  | .destroy (some m) => .marked m
  | _ => .idle

theorem safe_body : Safe t id c ((linuxMutexSys M τ).body c) ((outline M τ).Final t id c)
    (start c) := by
  have hfinal : ∀ a g, Ghost.rests g = true → (outline M τ).Final t id c a g :=
    fun a g hg => final_of_rests hg
  cases c with
  | init m => exact Outline.Wp.bind (safe_init (fun e g hg => hfinal (.err e) g hg) m)
  | destroy m =>
      cases m with
      | none => exact hfinal _ _ rfl
      | some m => exact Outline.Wp.bind (safe_destroy (fun e g hg => hfinal (.err e) g hg) m)
  | lock m =>
      refine Outline.Wp.bind (safe_ttPlatformMutexOn (fun e g hg => hfinal (.err e) g hg) ?_ m)
      exact fun Q' m a hQ' => safe_on (Or.inl rfl) hQ'
  | unlock m =>
      refine Outline.Wp.bind (safe_ttPlatformMutexOn (fun e g hg => hfinal (.err e) g hg) ?_ m)
      exact fun Q' m a hQ' => safe_on (Or.inr (Or.inl rfl)) hQ'
  | trylock m =>
      refine Outline.Wp.bind (safe_ttPlatformMutexOn (fun e g hg => hfinal (.err e) g hg) ?_ m)
      exact fun Q' m a hQ' => safe_on (Or.inr (Or.inr rfl)) hQ'
  | isLocked m => exact Outline.Wp.bind (safe_isLocked (fun b g hg => hfinal (.bool b) g hg) m)

end Functions

/-! ### Runs -/

theorem inv_start : ∃ G, Inv (View.start .zero : MutexView M τ) G ∧
    ∀ t, (outline M τ).idle (G t) := by
  have hzero : Settled (LinuxMutexes.zero : LinuxMutexes M τ) := by
    refine ⟨?_, ?_, ?_⟩
    · intro m hm
      cases hm
    · intro m m' a h
      cases h.1
    · intro a o ho
      cases ho
  refine ⟨fun _ => .idle, ⟨fun _ => rfl, ?_, fun _ => hzero⟩, fun _ => trivial⟩
  intro t id c hc
  cases hc

/-- What `Outline.sound` asks about the start of a call. -/
theorem safe_call [DecidableEq τ] (v : MutexView M τ) (G : τ → Ghost M) (t : τ) (c : MutexCall M)
    (_ : Books v) (hinv : Inv v G) (_ : v.calls t = none) (_ : (outline M τ).idle (G t))
    (hok : OneAtATime v t c) (hstop : ¬ Misused (v.call t c).trace) :
    ∃ g, Inv (v.call t c) (Function.update G t g) ∧
      Safe t v.next c ((linuxMutexSys M τ).body c) ((outline M τ).Final t v.next c) g := by
  have hsettled := hinv.settled hok
  refine ⟨start c, ⟨?_, ?_, ?_⟩, safe_body⟩
  · intro m
    rw [View.call_trace, flag_snoc]
    exact hinv.flags m
  · intro u id' c' hu
    have hut : u = t := by
      by_contra hne
      rw [View.call_calls, Function.update_of_ne hne, hok u] at hu
      cases hu
    subst hut
    rw [Function.update_self]
    refine ⟨fun w hw => by simp [hw, hok w], ?_⟩
    unfold start
    split
    · rename_i m
      refine ⟨hsettled, ?_⟩
      cases hi : (v.shared.mutex m).initialized with
      | true => exact hi
      | false =>
          exact absurd (At.last ⟨v.next, u, m, Or.inr ⟨rfl, (hinv.flags m).trans hi⟩⟩) hstop
    · exact hsettled
  · intro hnone
    have ht := hnone t
    simp at ht

/-- The step does not misuse a mutex. -/
def fits (tr₁ : List (MutexEvent M τ)) : MutexEvent M τ → Bool
  | .prim _ _ (.writeLock m _) _ => !flag tr₁ m
  | .call _ _ (.destroy (some m)) => flag tr₁ m
  | _ => true

theorem not_misused {tr : List (MutexEvent M τ)} (h : At.checks fits [] tr = true) :
    ¬ Misused tr := by
  refine At.not_of_checks ?_ h
  rintro tr₁ e ⟨id, t, m, ⟨lock, rfl, hm⟩ | ⟨rfl, hm⟩⟩
  · simp [fits, hm]
  · simp [fits, hm]

/-- Two mutexes: a destroy that fails, one that succeeds, and the address is used again. -/
def orderly : List (Label Bool LinuxChoice (MutexCall Bool)) :=
  List.flatten [
    [.call false (.init (some false)), .prim false (.addr 10)], List.replicate 3 (.prim false .ok),
    .ret false :: .call true (.lock (some false)) :: List.replicate 3 (.prim true .ok),
    .ret true :: .call true (.destroy (some false)) :: List.replicate 2 (.prim true .ok),
    .ret true :: .call true (.unlock (some false)) :: List.replicate 3 (.prim true .ok),
    .ret true :: .call false (.destroy (some false)) :: List.replicate 4 (.prim false .ok),
    [.ret false, .call false (.init (some true)), .prim false (.addr 10)],
    List.replicate 3 (.prim false .ok), [.ret false]]

end MutexObjects

open MutexObjects in
/--
**The Linux mutex functions own their pthread objects.**  Called one at a time on
zero-initialised mutexes, in every run in which no `tt_mutex_init` stores an object
into a mutex that is initialised and no `tt_mutex_destroy` is called on one that is
not: every allocator and pthread function is applied to what is live, and between
calls the objects are in one-to-one correspondence with the initialised mutexes.
-/
theorem ttPlatformMutex_owns {M τ : Type} [DecidableEq M] [DecidableEq τ]
    {pl : Pool (linuxMutexSig M) τ (LinuxMutexes M τ) (MutexCall M) TtVal}
    (h : (linuxMutexSys M τ).Reach OneAtATime .zero pl) (hmisused : ¬ Misused pl.view.trace) :
    (∀ t id c p k, pl.view.calls t = some (id, c) → pl.prog t = some (.step p k) →
      OnLive pl.view.shared p) ∧
    ((∀ t, pl.view.calls t = none) → Settled pl.view.shared) := by
  refine ⟨?_, ?_⟩
  · intro t id c p k hc hp
    exact (outline M τ).sound_pre inv_start safe_call h hmisused hc hp
  · intro hnone
    obtain ⟨G, hinv, -⟩ := (outline M τ).sound inv_start safe_call h hmisused
    exact hinv.settled hnone

open MutexObjects in
/-- A mutex destroyed and another one made at the same address. -/
theorem ttPlatformMutex_owns_orderly :
    ∃ pl : Pool (linuxMutexSig Bool) Bool (LinuxMutexes Bool Bool) (MutexCall Bool) TtVal,
      .ret 2 true (.destroy (some false)) (.err .mutexDestroy) ∈ pl.view.trace ∧
      Owns pl.view.shared true 10 ∧ Settled pl.view.shared := by
  have hrun : ((linuxMutexSys Bool Bool).run OneAtATime orderly (Sys.start .zero)).isSome = true :=
    rfl
  have hreach := Sys.Reach.run _ .start (Option.some_get hrun).symm
  refine ⟨_, List.mem_of_getElem? (i := 14) rfl, ⟨rfl, rfl⟩,
    (ttPlatformMutex_owns hreach (not_misused rfl)).2 ?_⟩
  intro t
  cases t with
  | false => rfl
  | true => rfl

open MutexObjects in
/-- **Neither is guarded against**: a destroy of a zero-initialised mutex hands `NULL` to
`pthread_mutex_destroy`, and initialising a mutex twice loses its first object. -/
theorem ttPlatformMutex_misused :
    (∃ pl : Pool (linuxMutexSig Unit) Unit (LinuxMutexes Unit Unit) (MutexCall Unit) TtVal,
      (linuxMutexSys Unit Unit).Reach OneAtATime .zero pl ∧
      ∃ id c p k, pl.view.calls () = some (id, c) ∧ pl.prog () = some (.step p k) ∧
        ¬ OnLive pl.view.shared p) ∧
    (∃ pl : Pool (linuxMutexSig Unit) Unit (LinuxMutexes Unit Unit) (MutexCall Unit) TtVal,
      (linuxMutexSys Unit Unit).Reach OneAtATime .zero pl ∧ (∀ t, pl.view.calls t = none) ∧
      ¬ Settled pl.view.shared) := by
  refine ⟨?_, ?_⟩
  · have hrun : ((linuxMutexSys Unit Unit).run OneAtATime
        [.call () (.destroy (some ())), .prim () .ok] (Sys.start .zero)).isSome = true := rfl
    refine ⟨_, Sys.Reach.run _ .start (Option.some_get hrun).symm, 0, _, _, _, rfl, rfl, ?_⟩
    rintro ⟨a, h, hnull, -⟩
    cases hnull
  · have hrun : ((linuxMutexSys Unit Unit).run OneAtATime
        [.call () (.init (some ())), .prim () (.addr 10), .prim () .ok, .prim () .ok, .prim () .ok,
          .ret (), .call () (.init (some ())), .prim () (.addr 11), .prim () .ok, .prim () .ok,
          .prim () .ok, .ret ()] (Sys.start .zero)).isSome = true := rfl
    refine ⟨_, Sys.Reach.run _ .start (Option.some_get hrun).symm, fun _ => rfl, ?_⟩
    intro h
    obtain ⟨m, -, hlock⟩ := h.owned 10 (.ready none) rfl
    cases hlock

end TinyTools
