/-
Either mutex is the mutex that its callers count on.

The modules of the library are verified over `lockMachine`, one mutex that is taken only
while it is free.  `tt_mutex.c` has two others, the spinlock and the one on pthreads, and
they are shown to be just that once they are initialised: each function does in one of its
steps what the call does as a whole, and nothing in the others.  So whatever a module does
over them it does over `lockMachine`, and its calls complete where they complete there.

On Linux that is so of `tt_mutex_lock`, `tt_mutex_unlock` and `tt_mutex_trylock`, with
pthread functions that do not fail; `tt_mutex_is_locked` takes the mutex for a moment,
which is no single step of a mutex.
-/
import TinyTools.Lib.Implement
import TinyTools.Proofs.Mutex.Agree
import TinyTools.Proofs.Mutex.Query

namespace TinyTools

open Interleave

/-! ### The two builds -/

/-- `tt_mutex.c` is compiled with `TT_CAP_MUTEX`, here for Linux, or without. -/
inductive MutexBuild : Type
  | generic (w : Nat)
  | linux

namespace MutexBuild

variable {S : Sig} {σ κ α : Type}

@[reducible] def sig : MutexBuild → Sig
  | generic w => spinSig Unit w
  | linux => linuxMutexSig Unit

/-- What is up to the environment. -/
@[reducible] def Choice : MutexBuild → Type
  | generic _ => Unit
  | linux => LinuxChoice

@[reducible] def State (τ : Type) : MutexBuild → Type
  | generic w => Unit → SpinMutex w
  | linux => LinuxMutexes Unit τ

@[reducible] def machine (τ : Type) : (b : MutexBuild) → Machine b.sig τ b.Choice (b.State τ)
  | generic w => spinMachine Unit w τ
  | linux => linuxMutexMachine Unit τ

@[reducible] def mutex : (b : MutexBuild) → (c : MutexCall Unit) → Prog b.sig c.Res
  | generic _ => spinMutex
  | linux => linuxMutex

/-- The choice with which no pthread function fails on the mutex it is meant for. -/
@[reducible] def well : (b : MutexBuild) → b.Choice
  | generic _ => ()
  | linux => .ok

/-- The mutex once it is initialised. -/
def steady (τ : Type) (b : MutexBuild) : Machine b.sig τ Unit (b.State τ) :=
  (b.machine τ).under fun _ _ => b.well

/-- The choice with which locking and unlocking does not fail, whatever else does. -/
@[reducible] def sureOn : (b : MutexBuild) → b.Choice → b.sig.Op → b.Choice
  | generic _, x, _ => x
  | linux, x, p =>
      match p with
      | .pthreadMutexLock _ | .pthreadMutexUnlock _ => .ok
      | _ => x

/-- The mutex while it is initialised. -/
def sure (τ : Type) (b : MutexBuild) : Machine b.sig τ b.Choice (b.State τ) :=
  (b.machine τ).under b.sureOn

/-- A module over the mutex of this build. -/
def linking {τ : Type} (b : MutexBuild) (M : Machine S τ Unit σ)
    (body : κ → Prog (S.sum (mutexSig Unit)) α) :
    Sys (S.sum b.sig) τ Unit (σ × b.State τ) κ α where
  toMachine := M.sum (b.steady τ)
  body c := (body c).link b.mutex

end MutexBuild

/-! ### Mutexes that stay initialised -/

namespace Lock

variable {S : Sig} {τ σ κ α : Type} {w : Nat} {t : τ} {b : MutexBuild} {p : Addr}

open MutexAgree (spinState wordSet_word word_zero setFirst_word)

/-- The generic mutex, initialised, that stands for one with this holder. -/
def Spins (h : Option τ) (s : Unit → SpinMutex w) : Prop := s = spinState true h.isSome

/-- The pthread mutex, initialised, with its object at `p`, that stands for one with this holder. -/
def Stays (p : Addr) (h : Option τ) (s : LinuxMutexes Unit τ) : Prop :=
  s.mutex () = ⟨some p, true⟩ ∧ s.object p = some (.ready h)

@[reducible] def StandsFor : (b : MutexBuild) → Addr → Option τ → b.State τ → Prop
  | .generic _, _ => Spins
  | .linux, p => Stays p

/-- The functions that are one step of a mutex, on a mutex that stays initialised. -/
@[reducible] def Use : MutexBuild → MutexCall Unit → Prop
  | _, .lock (some _) | _, .unlock (some _) | _, .trylock (some _) => True
  | .generic _, .isLocked (some _) => True
  | _, _ => False

/-- The mutex of a build below one that works. -/
def levels (b : MutexBuild) (p : Addr) (τ : Type) :
    Levels (mutexSig Unit) b.sig .empty τ Unit Unit (Option τ) (b.State τ) where
  upper := lockMachine τ Unit
  lower := b.steady τ
  shown _ := none
  shown' _ := none
  rel := StandsFor b p

/-! ### The generic mutex -/

section Spin

/-- Where the mutex is found initialised, its function goes on. -/
theorem spin_readInitialized {c : MutexCall Unit} {k : Bool → Prog (spinSig Unit w) c.Res}
    (h : (levels (.generic w) p τ).Waiting t c (k true)) :
    (levels (.generic w) p τ).Waiting t c
      (.step (.readInitialized ()) k) := by
  refine .read (r := true) ?_ rfl rfl h
  rintro a _ x rfl
  rfl

/-- A test-and-set tells whether somebody has the mutex, and leaves it held. -/
theorem spin_set (a : Option τ) (t : τ) :
    spinExec () t (.testAndSet ()) (spinState true a.isSome : Unit → SpinMutex w)
      = some (a.isSome, spinState true true) := by
  have hset := setFirst_word (w := w) (b := true) a.isSome true
  have hzero := word_zero (w := w) a.isSome
  exact congrArg some (Prod.ext hzero hset)

theorem spin_lock (m : Unit) : (levels (.generic w) p τ).Waiting t
    (.lock (some m)) (ttMutexLock (some m)) := by
  refine spin_readInitialized ?_
  rintro a _ rfl
  refine ⟨?_, ?_⟩
  · rintro ⟨y, r, a', hexec, -⟩
    cases a with
    | none => exact ⟨(), false, _, spin_set none t, rfl⟩
    | some u => cases hexec
  · intro x r c' hexec
    cases (spin_set a t).symm.trans hexec
    cases a with
    | none => exact .now (y := ()) (v := .success) (b := some t) rfl rfl rfl rfl rfl rfl
    | some u => exact .later rfl rfl nofun

theorem spin_unlock (m : Unit) : (levels (.generic w) p τ).Waiting t
    (.unlock (some m)) (ttMutexUnlock (some m)) := by
  refine spin_readInitialized ?_
  rintro a _ rfl
  have hclear := setFirst_word (w := w) (b := true) a.isSome false
  refine ⟨fun _ => ⟨(), (), _, rfl, rfl⟩, ?_⟩
  intro x r c' hexec
  cases hexec
  exact .now (y := ()) (v := .success) (b := none) rfl rfl rfl rfl hclear rfl

theorem spin_trylock (m : Unit) : (levels (.generic w) p τ).Waiting t
    (.trylock (some m)) (ttMutexTrylock (some m)) := by
  refine spin_readInitialized ?_
  rintro a _ rfl
  refine ⟨fun _ => ⟨(), _, _, spin_set a t, rfl⟩, ?_⟩
  intro x r c' hexec
  cases (spin_set a t).symm.trans hexec
  cases a with
  | none => exact .now (y := ()) (v := .success) (b := some t) rfl rfl rfl rfl rfl rfl
  | some u => exact .now (y := ()) (v := .busy) (b := some u) rfl rfl rfl rfl rfl rfl

theorem spin_isLocked (m : Unit) : (levels (.generic w) p τ).Waiting t
    (.isLocked (some m)) (ttMutexIsLocked (some m)) := by
  refine spin_readInitialized ?_
  rintro a _ rfl
  have hword : wordSet (spinState true a.isSome m : SpinMutex w).lock = a.isSome := wordSet_word _
  refine ⟨fun _ => ⟨(), _, _, rfl, rfl⟩, ?_⟩
  intro x r c' hexec
  cases hexec
  refine .now (y := ()) (v := a.isSome) (b := a) rfl rfl rfl rfl rfl ?_
  simp only [hword]
  cases a <;> rfl

end Spin

/-! ### The pthread mutex -/

section Linux

variable {h : Option τ} {s s' : LinuxMutexes Unit τ} {x : Unit}

/-- The object with another holder. -/
theorem Stays.set (hs : Stays p h s) (h' : Option τ) :
    Stays p h' (s.setObject p (some (.ready h'))) :=
  ⟨hs.1, Function.update_self ..⟩

theorem steady_take (hs : Stays p none s) :
    (MutexBuild.linux.steady τ).exec x t (.pthreadMutexLock (some p)) s
      = some (true, s.setObject p (some (.ready (some t)))) := by
  show linuxMutexExec .ok t (.pthreadMutexLock (some p)) s = _
  simp only [linuxMutexExec, hs.2]

theorem steady_give (hs : Stays p h s) :
    (MutexBuild.linux.steady τ).exec x t (.pthreadMutexUnlock (some p)) s
      = some (true, s.setObject p (some (.ready none))) := by
  show linuxMutexExec .ok t (.pthreadMutexUnlock (some p)) s = _
  simp only [linuxMutexExec, hs.2]

/-- A trylock answers whether the mutex was free. -/
theorem steady_try (hs : Stays p h s) : ∃ s', Stays p (some (h.getD t)) s' ∧
    (MutexBuild.linux.steady τ).exec x t (.pthreadMutexTrylock (some p)) s = some (h.isNone, s') := by
  cases h with
  | none =>
      refine ⟨_, hs.set (some t), ?_⟩
      show linuxMutexExec .ok t (.pthreadMutexTrylock (some p)) s = _
      simp only [linuxMutexExec, hs.2]
      rfl
  | some u =>
      refine ⟨s, hs, ?_⟩
      show linuxMutexExec .ok t (.pthreadMutexTrylock (some p)) s = _
      simp only [linuxMutexExec, hs.2]
      rfl

/-- Where the mutex is found initialised, its function goes on to its object. -/
theorem linux_on {c : MutexCall Unit} {k : Option Addr → Prog (linuxMutexSig Unit) c.Res}
    {e : c.Res} (m : Unit) (hk : (levels .linux p τ).Waiting t c (k (some p))) :
    (levels .linux p τ).Waiting t c
      (.step (.readInitialized m) fun (initialized : Bool) =>
        if !initialized then .ret e else .step (.readLock m) k) := by
  refine .read (r := true) ?_ rfl rfl (.read (r := some p) ?_ rfl rfl hk)
  · intro a s x hs
    show some ((s.mutex ()).initialized, s) = _
    rw [hs.1]
  · intro a s x hs
    show some ((s.mutex ()).lock, s) = _
    rw [hs.1]

theorem linux_lock (m : Unit) : (levels .linux p τ).Waiting t
    (.lock (some m)) (ttPlatformMutexLock (some m)) := by
  refine linux_on m ?_
  intro a s hs
  refine ⟨?_, ?_⟩
  · rintro ⟨y, r, a', hexec, -⟩
    cases a with
    | none => exact ⟨(), true, _, steady_take hs, rfl⟩
    | some u => cases hexec
  · intro x r s' hexec
    obtain ⟨rfl, rfl, rfl⟩ := MutexQuery.steady_lock hs.2 hexec
    exact .now (y := ()) (v := .success) (b := some t) rfl rfl rfl rfl (hs.set _) rfl

theorem linux_unlock (m : Unit) : (levels .linux p τ).Waiting t
    (.unlock (some m)) (ttPlatformMutexUnlock (some m)) := by
  refine linux_on m ?_
  intro a s hs
  refine ⟨fun _ => ⟨(), true, _, steady_give hs, rfl⟩, ?_⟩
  intro x r s' hexec
  obtain ⟨rfl, rfl⟩ := MutexQuery.steady_unlock (t := t) hs.2 hexec
  exact .now (y := ()) (v := .success) (b := none) rfl rfl rfl rfl (hs.set _) rfl

theorem linux_trylock (m : Unit) : (levels .linux p τ).Waiting t
    (.trylock (some m)) (ttPlatformMutexTrylock (some m)) := by
  refine linux_on m ?_
  intro a s hs
  obtain ⟨s₁, hs₁, hexec₁⟩ := steady_try (t := t) (x := ()) hs
  refine ⟨fun _ => ⟨(), _, s₁, hexec₁, rfl⟩, ?_⟩
  intro x r s' hexec
  cases hexec₁.symm.trans hexec
  cases a with
  | none => exact .now (y := ()) (v := .success) (b := some t) rfl rfl rfl rfl hs₁ rfl
  | some u => exact .now (y := ()) (v := .busy) (b := some u) rfl rfl rfl rfl hs₁ rfl

end Linux

/-- Each of these functions is one step of a mutex that works. -/
theorem waiting {c : MutexCall Unit} (hc : Use b c) :
    (levels b p τ).Waiting t c (b.mutex c) := by
  rcases b with w | _
  · rcases c with _ | _ | (_ | m) | (_ | m) | (_ | m) | (_ | m)
    case lock.some => exact spin_lock m
    case unlock.some => exact spin_unlock m
    case trylock.some => exact spin_trylock m
    case isLocked.some => exact spin_isLocked m
    all_goals exact hc.elim
  · rcases c with _ | _ | (_ | m) | (_ | m) | (_ | m) | (_ | m)
    case lock.some => exact linux_lock m
    case unlock.some => exact linux_unlock m
    case trylock.some => exact linux_trylock m
    all_goals exact hc.elim

/-! ### Locking and unlocking -/

/-- What locking and unlocking comes to. -/
@[reducible] def OnLock : (b : MutexBuild) → b.sig.Op → Prop
  | .generic _, _ => True
  | .linux, .readInitialized _ | .linux, .readLock _ | .linux, .pthreadMutexLock _
  | .linux, .pthreadMutexUnlock _ => True
  | .linux, _ => False

/-- Lock or unlock. -/
def Locks (c : MutexCall Unit) : Prop := c = .lock (some ()) ∨ c = .unlock (some ())

theorem Locks.use {c : MutexCall Unit} (hc : Locks c) : Use b c := by
  rcases hc with rfl | rfl
  · cases b <;> trivial
  · cases b <;> trivial

theorem every_onLock {c : MutexCall Unit} (hc : Locks c) : (b.mutex c).Every (OnLock b) := by
  cases b with
  | generic w => exact Prog.every_of_forall (fun _ => trivial) _
  | linux =>
      rcases hc with rfl | rfl
      · exact ⟨trivial, fun _ => Prog.every_ite trivial
          ⟨trivial, fun _ => ⟨trivial, fun _ => trivial⟩⟩⟩
      · exact ⟨trivial, fun _ => Prog.every_ite trivial
          ⟨trivial, fun _ => ⟨trivial, fun _ => trivial⟩⟩⟩

/-- It makes no difference to them that initialising a mutex may fail. -/
theorem exec_onLock {q : b.sig.Op} (hq : OnLock b q) (x : b.Choice) (s : b.State τ) :
    (b.sure τ).exec x t q s = (b.steady τ).exec () t q s := by
  cases b with
  | generic w => rfl
  | linux =>
      cases q with
      | readInitialized m | readLock m | pthreadMutexLock m | pthreadMutexUnlock m => rfl
      | _ => exact hq.elim

/-! ### Modules over a mutex -/

/-- A module whose own primitives are those of `M`, over a mutex that works. -/
def overLock (M : Machine S τ Unit σ) (body : κ → Prog (S.sum (mutexSig Unit)) α) :
    Sys (S.sum (mutexSig Unit)) τ Unit (σ × Option τ) κ α where
  toMachine := M.sum (lockMachine τ Unit)
  body := body

/-- In either build the mutex does what a mutex does, whatever module is over it. -/
def implements (b : MutexBuild) (p : Addr) (M : Machine S τ Unit σ) :
    Implements ((levels b p τ).beside M M) (Prog.beside b.mutex) (Levels.Uses (Use b)) :=
  Levels.implements _ (Levels.waiting_beside (fun x _ _ _ _ _ h => ⟨x, h⟩)
    (fun x _ _ _ _ _ h => ⟨x, h⟩) (fun _ _ => rfl) fun _ _ hp => waiting hp)

/-- It keeps nobody waiting who would not wait for a mutex. -/
theorem implements_live {M : Machine S τ Unit σ} : (implements b p M).Live :=
  Levels.implements_live

/-- None of these functions is longer than three steps. -/
theorem short_mutex {c : MutexCall Unit} (hc : Use b c) : (b.mutex c).Short 3 := by
  rcases b with w | _
  · rcases c with _ | _ | (_ | m) | (_ | m) | (_ | m) | (_ | m)
    case lock.some | unlock.some => exact fun _ => Prog.short_ite trivial fun _ => trivial
    case trylock.some | isLocked.some =>
      exact fun _ => Prog.short_ite trivial fun _ => Prog.short_ite trivial trivial
    all_goals exact hc.elim
  · rcases c with _ | _ | (_ | m) | (_ | m) | (_ | m) | (_ | m)
    case lock.some | unlock.some | trylock.some =>
      exact fun _ => Prog.short_ite trivial fun _ _ => trivial
    all_goals exact hc.elim

/-! ### Initialised mutexes -/

/-- A completed `tt_mutex_init` leaves the generic mutex free. -/
theorem spins_init {s s' : Unit → SpinMutex w} {e : TtError}
    (h : (spinMachine Unit w τ).Returns t (ttMutexInit (some ())) s e s') :
    Spins (none : Option τ) s' := by
  obtain ⟨x, r, s₁, hexec, h⟩ := (Machine.returns_step_iff fun _ _ _ _ => rfl).mp h
  cases hexec
  obtain ⟨x, r, s₁, hexec, h⟩ := (Machine.returns_step_iff fun _ _ _ _ => rfl).mp h
  cases hexec
  obtain ⟨-, rfl⟩ := Machine.returns_ret_iff.mp h
  funext u
  simp [spinState, MutexAgree.word_false]

/-- A generic mutex whose word is zero is free. -/
theorem spins_zero {s : Unit → SpinMutex w} (hlock : ∀ i, (s ()).lock i = 0)
    (hflag : (s ()).initialized = true) : Spins (none : Option τ) s := by
  funext u
  have hword : (s ()).lock = MutexAgree.word false := by
    rw [MutexAgree.word_false]
    exact funext hlock
  exact congrArg₂ SpinMutex.mk hword hflag

/-- A `tt_mutex_init` that succeeds leaves a pthread mutex that is free. -/
theorem stays_init {s s' : LinuxMutexes Unit τ}
    (hinit : (linuxMutexMachine Unit τ).Returns t (ttPlatformMutexInit (some ())) s .success s') :
    ∃ p, Stays p (none : Option τ) s' := by
  obtain ⟨x, r, s₁, hexec, h⟩ := (Machine.returns_step_iff fun _ _ _ _ => rfl).mp hinit
  rcases linuxMutexExec_malloc (t := t) hexec with ⟨p, -, rfl, rfl⟩ | ⟨rfl, rfl⟩
  · simp only [reduceCtorEq, if_false] at h
    obtain ⟨x, ok, s₂, hexec, h⟩ := (Machine.returns_step_iff fun _ _ _ _ => rfl).mp h
    rcases linuxMutexExec_init (t := t) (Function.update_self ..) hexec with ⟨rfl, rfl⟩ | ⟨rfl, rfl⟩
    · simp only [Bool.not_true, Bool.false_eq_true, if_false] at h
      obtain ⟨x, r, s₃, hexec, h⟩ := (Machine.returns_step_iff fun _ _ _ _ => rfl).mp h
      cases hexec
      obtain ⟨x, r, s₄, hexec, h⟩ := (Machine.returns_step_iff fun _ _ _ _ => rfl).mp h
      cases hexec
      obtain ⟨-, rfl⟩ := Machine.returns_ret_iff.mp h
      exact ⟨p, by simp [Stays]⟩
    · simp only [Bool.not_false, if_true] at h
      obtain ⟨x, r, s₃, hexec, h⟩ := (Machine.returns_step_iff fun _ _ _ _ => rfl).mp h
      obtain ⟨he, -⟩ := Machine.returns_ret_iff.mp h
      cases he
  · simp only [↓reduceIte] at h
    obtain ⟨he, -⟩ := Machine.returns_ret_iff.mp h
    cases he

/-- After a `tt_mutex_init` that succeeded the mutex is free. -/
theorem standsFor_init {m₀ m₁ : b.State τ}
    (hinit : (b.machine τ).Returns t (b.mutex (.init (some ()))) m₀ .success m₁) :
    ∃ p, StandsFor b p none m₁ := by
  cases b with
  | generic w => exact ⟨0, spins_init hinit⟩
  | linux => exact stays_init hinit

/-- A mutex that stands for a free one stands for no other. -/
theorem standsFor_free {p' : Addr} {h : Option τ} {m : b.State τ} (hm : StandsFor b p h m)
    (hfree : StandsFor b p' (none : Option τ) m) : h = none := by
  cases b with
  | generic w =>
      have heq : spinState true h.isSome = (spinState true false : Unit → SpinMutex w) :=
        hm.symm.trans hfree
      have hlock := congrArg (fun s => wordSet (s ()).lock) heq
      rw [← Option.not_isSome_iff_eq_none, Bool.not_eq_true]
      exact (wordSet_word _).symm.trans (hlock.trans (wordSet_word _))
  | linux =>
      cases hm.1.symm.trans hfree.1
      cases hm.2.symm.trans hfree.2
      rfl

/-! ### A module with nothing of its own -/

def noOps : Machine .empty Nat Unit Unit where
  exec _ _ p := nomatch p

/-- Threads calling the mutex functions themselves. -/
def userBody (c : MutexCall Unit) : Prog (Sig.empty.sum (mutexSig Unit)) TtVal :=
  .step (.inr c) fun r => .ret (c.val r)

/-- Clients that lock, unlock and try. -/
def userOk (_ : List (Event .empty Nat (MutexCall Unit) TtVal)) (_ : Nat) (c : MutexCall Unit) :
    Prop :=
  c ∈ [.lock (some ()), .unlock (some ()), .trylock (some ())]

instance {T : Sig} {σ : Type} (v : View (Sig.empty.sum T) Nat σ (MutexCall Unit) TtVal) (t : Nat)
    (c : MutexCall Unit) : Decidable (promise own userOk v t c) :=
  inferInstanceAs (Decidable (c ∈ _))

theorem userOk_uses (b : MutexBuild) :
    ∀ tr t c, userOk tr t c → (userBody c).Every (Levels.Uses (Use b)) := by
  intro tr t c hc
  simp only [userOk, List.mem_cons, List.not_mem_nil, or_false] at hc
  rcases hc with rfl | rfl | rfl <;> exact ⟨by cases b <;> trivial, fun _ => trivial⟩

/-- What `tt_mutex_init` leaves where `malloc` answers 10. -/
def fresh : LinuxMutexes Unit Nat :=
  (((LinuxMutexes.zero.setObject 10 (some .raw)).setObject 10 (some (.ready none))).setMutex ()
    ⟨some 10, false⟩).setMutex () ⟨some 10, true⟩

theorem fresh_init :
    (linuxMutexMachine Unit Nat).Returns 0 (ttPlatformMutexInit (some ())) .zero .success fresh :=
  ⟨_, Machine.run_of_eval [.addr 10, .ok, .ok, .ok] rfl⟩

end Lock

open Lock

/--
**In either build the mutex is the mutex its callers count on.** After a `tt_mutex_init`
that succeeded let any module call lock, unlock and trylock, and is_locked of the spinlock,
from any threads and in any interleaving of the steps these functions take.  There is a run
of the same module over `lockMachine` with the same calls, the same primitives of the
module's own and the same returns in the same order, that ends in the same state of the
module and with the mutex held by whom it is held.
-/
theorem ttMutex_refines (b : MutexBuild) {S : Sig} {τ σ κ α : Type} [DecidableEq τ] {t₀ : τ}
    {m₀ m₁ : b.State τ}
    (hinit : (b.machine τ).Returns t₀ (b.mutex (.init (some ()))) m₀ .success m₁)
    {M : Machine S τ Unit σ} {body : κ → Prog (S.sum (mutexSig Unit)) α}
    {ok : List (Event S τ κ α) → τ → κ → Prop}
    (huse : ∀ tr t c, ok tr t c → (body c).Every (Levels.Uses (Use b))) {s : σ}
    {pc : Pool (S.sum b.sig) τ (σ × b.State τ) κ α}
    (h : (b.linking M body).Reach (promise own ok) (s, m₁) pc) :
    ∃ pa, (overLock M body).Reach (promise own ok) (s, none) pa ∧
      seen own pa.view.trace = seen own pc.view.trace ∧ pa.view.calls = pc.view.calls ∧
      pa.view.shared.1 = pc.view.shared.1 ∧
      ∃ p, StandsFor b p pa.view.shared.2 pc.view.shared.2 := by
  obtain ⟨p, hp⟩ := standsFor_init hinit
  have hrel : ((levels b p τ).beside M M).rel (s, none) (s, m₁) := ⟨rfl, hp⟩
  obtain ⟨pa, hpa, hm⟩ := (implements b p M).refines (f := body)
    (fun _ _ c _ => Prog.link_eq_handle b.mutex (body c)) huse hrel h
  exact ⟨pa, hpa, hm.seen, hm.calls, hm.rel.1, p, hm.rel.2⟩

/-- A thread that spins until the other one clears the word; a trylock on Linux while another thread
has the mutex, and one after that. -/
theorem ttMutex_refines_contended :
    (∃ pc, ((MutexBuild.generic 7).linking noOps userBody).Reach (promise own userOk)
        ((), fun _ => ⟨fun _ => 0, true⟩) pc ∧
      ∃ pa, (overLock noOps userBody).Reach (promise own userOk) ((), (none : Option Nat)) pa ∧
        .ret 1 1 (.lock (some ())) (.err .success) ∈ pa.view.trace ∧
        seen own pa.view.trace = seen own pc.view.trace ∧ Spins pa.view.shared.2 pc.view.shared.2) ∧
    ∃ pc, (MutexBuild.linux.linking noOps userBody).Reach (promise own userOk) ((), fresh) pc ∧
      ∃ pa, (overLock noOps userBody).Reach (promise own userOk) ((), (none : Option Nat)) pa ∧
        .ret 1 1 (.trylock (some ())) (.err .busy) ∈ pa.view.trace ∧
        .ret 3 1 (.trylock (some ())) (.err .success) ∈ pa.view.trace ∧
        seen own pa.view.trace = seen own pc.view.trace := by
  refine ⟨?_, ?_⟩
  · have hinit : (spinMachine Unit 7 Nat).Returns 0 (ttMutexInit (some ()))
        (fun _ => ⟨fun _ => 3, false⟩) .success (fun _ => ⟨fun _ => 0, true⟩) :=
      ⟨_, .step () rfl rfl (.step () (congrArg (fun s => some ((), s))
        (MutexAgree.update_unit _ _)) rfl (.ret _ _))⟩
    have hrun : (((MutexBuild.generic 7).linking noOps userBody).run (promise own userOk)
        [.call 0 (.lock (some ())), .prim 0 (), .prim 0 (), .ret 0, .call 1 (.lock (some ())),
          .prim 1 (), .prim 1 (), .call 0 (.unlock (some ())), .prim 0 (), .prim 0 (), .prim 1 (),
          .ret 1] (Sys.start ((), fun _ => ⟨fun _ => 0, true⟩))).isSome = true := rfl
    have hreach := Sys.Reach.run _ .start (Option.some_get hrun).symm
    obtain ⟨pa, hpa, hseen, -, -, p, hp⟩ :=
      ttMutex_refines (.generic 7) hinit (userOk_uses _) hreach
    refine ⟨_, hreach, pa, hpa, ?_, hseen, hp⟩
    rw [← ret_mem_seen, hseen]
    exact List.mem_of_getLast? rfl
  · have hrun : ((MutexBuild.linux.linking noOps userBody).run (promise own userOk)
        [.call 0 (.lock (some ())), .prim 0 (), .prim 0 (), .prim 0 (), .ret 0,
          .call 1 (.trylock (some ())), .prim 1 (), .prim 1 (), .prim 1 (), .ret 1,
          .call 0 (.unlock (some ())), .prim 0 (), .prim 0 (), .prim 0 (), .ret 0,
          .call 1 (.trylock (some ())), .prim 1 (), .prim 1 (), .prim 1 (), .ret 1]
        (Sys.start ((), fresh))).isSome = true := rfl
    have hreach := Sys.Reach.run _ .start (Option.some_get hrun).symm
    obtain ⟨pa, hpa, hseen, -⟩ :=
      ttMutex_refines .linux fresh_init (userOk_uses _) hreach
    refine ⟨_, hreach, pa, hpa, ?_, ?_, hseen⟩
    · rw [← ret_mem_seen, hseen]
      exact List.mem_of_getElem? (i := 3) rfl
    · rw [← ret_mem_seen, hseen]
      exact List.mem_of_getLast? rfl

end TinyTools
