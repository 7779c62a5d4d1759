/-
The two mutex implementations, side by side.

One thread makes the same calls on the generic spinlock and on the Linux mutex.  They
stay in step through a simulation: both uninitialised, or both initialised and held
or not, the lock word matching the holder of the pthread mutex.

They do not agree on misuse.  A call before init or after destroy is answered with
two different codes, a destroy there follows a pointer that leads nowhere, and a
destroy of a held mutex is refused on Linux only.  These are all the differences.
-/
import TinyTools.Platform.Linux.Mutex

namespace TinyTools

open Interleave

namespace MutexAgree

variable {w : Nat}

/-! ### Sequences of calls -/

/-- Where a mutex stands: `ready true` is held. -/
inductive Phase : Type
  | uninit
  | ready (held : Bool)
  deriving DecidableEq

/-- What the caller may call. -/
def Admits : Phase → MutexCall Unit → Prop
  | .ready _, .init (some _) => False
  | .ready true, .lock (some _) => False
  | .ready false, .unlock (some _) => False
  | _, _ => True

/-- Where an admitted call leads to; a destroy of a held mutex is refused. -/
def Phase.next : Phase → MutexCall Unit → Phase
  | .uninit, .init (some _) => .ready false
  | .ready false, .lock (some _) | .ready false, .trylock (some _) => .ready true
  | .ready true, .unlock (some _) => .ready false
  | .ready false, .destroy (some _) => .uninit
  | q, _ => q

/-- Lock, unlock and trylock on an initialised mutex, destroy on one that is also free. -/
def Proper : Phase → MutexCall Unit → Prop
  | .uninit, .lock (some _) | .uninit, .unlock (some _) | .uninit, .trylock (some _) => False
  | .uninit, .destroy (some _) | .ready true, .destroy (some _) => False
  | _, _ => True

/-- `P` holds of every call where it is made. -/
def Throughout (P : Phase → MutexCall Unit → Prop) : Phase → List (MutexCall Unit) → Prop
  | _, [] => True
  | q, c :: cs => P q c ∧ Throughout P (q.next c) cs

/-! ### Two machines -/

abbrev Spin (w : Nat) := Unit → SpinMutex w

abbrev Linux := LinuxMutexes Unit Unit

/-- The word of a zero-initialised mutex. -/
def spinZero : Spin w := fun _ => ⟨fun _ => 0, false⟩

/-- The environment chooses an address for `malloc`; nothing else fails. -/
def lucky (a : Addr) : LinuxMutexOp Unit → LinuxChoice
  | .malloc => .addr a
  | _ => .ok

def luckyMachine : Machine (linuxMutexSig Unit) Unit Addr Linux :=
  (linuxMutexMachine Unit Unit).under lucky

def spinLocked (s : Spin w) : Bool := wordSet (s ()).lock

def linuxLocked (s : Linux) : Bool :=
  match (s.mutex ()).lock with
  | some a => s.object a = some (.ready (some ()))
  | none => false

/-- `a` and `s'` are a result of the generic function. -/
def SpinReturns (c : MutexCall Unit) (s : Spin w) (a : c.Res) (s' : Spin w) : Prop :=
  (spinMachine Unit w Unit).Returns () (spinMutex c) s a s'

def LinuxReturns (c : MutexCall Unit) (s : Linux) (a : c.Res) (s' : Linux) : Prop :=
  luckyMachine.Returns () (linuxMutex c) s a s'

/-- Made on both, the calls come to an end, return the same and leave the same flag and the same
locked state. -/
def Agree : List (MutexCall Unit) → Spin w → Linux → Prop
  | [], _, _ => True
  | c :: cs, s₁, s₂ =>
      (∃ a s₁', SpinReturns c s₁ a s₁') ∧ (∃ a s₂', LinuxReturns c s₂ a s₂') ∧
      ∀ a₁ s₁' a₂ s₂', SpinReturns c s₁ a₁ s₁' → LinuxReturns c s₂ a₂ s₂' →
        a₁ = a₂ ∧ (s₁' ()).initialized = (s₂'.mutex ()).initialized ∧
        spinLocked s₁' = linuxLocked s₂' ∧ Agree cs s₁' s₂'

/-! ### The states they go through -/

/-- The lock word, held or not. -/
def word (held : Bool) : Fin (w + 1) → UInt8 :=
  (SpinMutex.setFirst ⟨fun _ => 0, false⟩ (if held then setByte else 0)).lock

def spinState (b held : Bool) : Spin w := fun _ => ⟨word held, b⟩

/-- At most one object is allocated. -/
def linuxState (lock : Option Addr) (b : Bool) (a : Addr) (o : Option (LinuxMutex Unit)) : Linux :=
  ⟨fun _ => ⟨lock, b⟩, Function.update (fun _ => none) a o⟩

def holder (held : Bool) : Option Unit := if held then some () else none

/-- The two mutexes in phase `q`. -/
def Rel : Phase → Spin w → Linux → Prop
  | .uninit, s₁, s₂ => s₁ = spinState false false ∧ ∃ lock a, s₂ = linuxState lock false a none
  | .ready held, s₁, s₂ => s₁ = spinState true held ∧
      ∃ a, s₂ = linuxState (some a) true a (some (.ready (holder held)))

@[simp] theorem wordSet_word (held : Bool) : wordSet (word held : Fin (w + 1) → UInt8) = held := by
  unfold wordSet word SpinMutex.setFirst
  cases held with
  | false => simp
  | true =>
      simp only [if_true, decide_eq_true_eq]
      exact ⟨0, by simp [setByte]⟩

@[simp] theorem word_zero (held : Bool) :
    decide ((word held : Fin (w + 1) → UInt8) 0 ≠ 0) = held := by
  cases held <;> simp [word, SpinMutex.setFirst, setByte]

theorem word_false : (word false : Fin (w + 1) → UInt8) = fun _ => 0 := by
  simp [word, SpinMutex.setFirst]

/-- Between calls the two agree on the flag and on the locked state. -/
theorem Rel.same {q : Phase} {s₁ : Spin w} {s₂ : Linux} (h : Rel q s₁ s₂) :
    (s₁ ()).initialized = (s₂.mutex ()).initialized ∧ spinLocked s₁ = linuxLocked s₂ := by
  cases q with
  | uninit =>
      obtain ⟨rfl, lock, a, rfl⟩ := h
      refine ⟨rfl, ?_⟩
      cases lock <;> simp [spinLocked, linuxLocked, spinState, linuxState]
  | ready held =>
      obtain ⟨rfl, a, rfl⟩ := h
      refine ⟨rfl, ?_⟩
      cases held <;> simp [spinLocked, linuxLocked, spinState, linuxState, holder]

/-! ### The steps of the two machines -/

section Spin

variable {α : Type} {a' : α} {b held : Bool} {s' : Spin w}

abbrev spinRun (m : Prog (spinSig Unit w) α) (s : Spin w) (a : α) (s' : Spin w) : Prop :=
  (spinMachine Unit w Unit).Returns () m s a s'

theorem update_unit {β : Type} (f : Unit → β) (x : β) : Function.update f () x = fun _ => x := by
  funext u
  simp

@[simp] theorem spin_ret {a : α} {s : Spin w} :
    spinRun (.ret a) s a' s' ↔ a = a' ∧ s = s' :=
  Machine.returns_ret_iff

/-- A primitive with one outcome. -/
theorem spin_step {p : SpinOp Unit} {k : SpinOp.Res w p → Prog (spinSig Unit w) α} {s s₁ : Spin w}
    {r : SpinOp.Res w p} (h : spinExec () () p s = some (r, s₁)) (hr : SpinOp.again p r = false) :
    spinRun (.step p k) s a' s' ↔ spinRun (k r) s₁ a' s' :=
  Machine.returns_step_det (fun _ => h) hr

@[simp] theorem spin_readInitialized {k : Bool → Prog (spinSig Unit w) α} :
    spinRun (.step (.readInitialized ()) k) (spinState b held) a' s' ↔
      spinRun (k b) (spinState b held) a' s' :=
  spin_step rfl rfl

@[simp] theorem spin_load {k : (Fin (w + 1) → UInt8) → Prog (spinSig Unit w) α} :
    spinRun (.step (.load ()) k) (spinState b held) a' s' ↔
      spinRun (k (word held)) (spinState b held) a' s' :=
  spin_step rfl rfl

@[simp] theorem spin_writeInitialized {b' : Bool} {k : Unit → Prog (spinSig Unit w) α} :
    spinRun (.step (.writeInitialized () b') k) (spinState b held) a' s' ↔
      spinRun (k ()) (spinState b' held) a' s' := by
  refine spin_step ?_ rfl
  rw [spinExec, update_unit]
  rfl

@[simp] theorem spin_storeUnlocked {k : Unit → Prog (spinSig Unit w) α} :
    spinRun (.step (.storeUnlocked ()) k) (spinState b held) a' s' ↔
      spinRun (k ()) (spinState b false) a' s' := by
  refine spin_step ?_ rfl
  rw [spinExec, update_unit, ← word_false]
  rfl

/-- The first byte is written. -/
theorem setFirst_word (held held' : Bool) :
    Function.update (spinState b held : Spin w) ()
        ((spinState b held ()).setFirst (if held' then setByte else 0)) = spinState b held' := by
  rw [update_unit]
  funext u
  simp [spinState, SpinMutex.setFirst, word]

@[simp] theorem spin_testAndSet {k : Bool → Prog (spinSig Unit w) α} :
    spinRun (.step (.testAndSet ()) k) (spinState b held) a' s' ↔
      spinRun (k held) (spinState b true) a' s' := by
  refine spin_step ?_ rfl
  rw [← setFirst_word held true]
  exact congrArg (fun r => some (r, _)) (word_zero (w := w) held)

@[simp] theorem spin_spinTestAndSet {k : Bool → Prog (spinSig Unit w) α} :
    spinRun (.step (.spinTestAndSet ()) k) (spinState b false) a' s' ↔
      spinRun (k false) (spinState b true) a' s' := by
  refine spin_step ?_ rfl
  rw [← setFirst_word false true]
  exact congrArg (fun r => some (r, _)) (word_zero (w := w) false)

@[simp] theorem spin_clear {k : Unit → Prog (spinSig Unit w) α} :
    spinRun (.step (.clear ()) k) (spinState b held) a' s' ↔
      spinRun (k ()) (spinState b false) a' s' := by
  refine spin_step ?_ rfl
  rw [← setFirst_word held false]
  rfl

end Spin

section Linux

variable {α : Type} {a' : α} {s' : Linux} {lock : Option Addr} {b : Bool} {a : Addr}
  {o : Option (LinuxMutex Unit)}

abbrev linuxRun (m : Prog (linuxMutexSig Unit) α) (s : Linux) (a : α) (s' : Linux) : Prop :=
  luckyMachine.Returns () m s a s'

instance : Nonempty Addr := ⟨0⟩

@[simp] theorem linux_ret {x : α} {s : Linux} :
    linuxRun (.ret x) s a' s' ↔ x = a' ∧ s = s' :=
  Machine.returns_ret_iff

/-- A primitive with one outcome. -/
theorem linux_step {p : LinuxMutexOp Unit} {k : p.Res → Prog (linuxMutexSig Unit) α} {s s₁ : Linux}
    {r : p.Res} (hp : ∀ x, lucky x p = .ok)
    (h : linuxMutexExec .ok () p s = some (r, s₁)) :
    linuxRun (.step p k) s a' s' ↔ linuxRun (k r) s₁ a' s' := by
  refine Machine.returns_step_det (fun x => ?_) rfl
  show linuxMutexExec (lucky x p) () p s = some (r, s₁)
  rw [hp x]
  exact h

@[simp] theorem linux_readInitialized {k : Bool → Prog (linuxMutexSig Unit) α} :
    linuxRun (.step (.readInitialized ()) k) (linuxState lock b a o) a' s' ↔
      linuxRun (k b) (linuxState lock b a o) a' s' :=
  linux_step (fun _ => rfl) rfl

@[simp] theorem linux_readLock {k : Option Addr → Prog (linuxMutexSig Unit) α} :
    linuxRun (.step (.readLock ()) k) (linuxState lock b a o) a' s' ↔
      linuxRun (k lock) (linuxState lock b a o) a' s' :=
  linux_step (fun _ => rfl) rfl

@[simp] theorem linux_writeInitialized {b' : Bool} {k : Unit → Prog (linuxMutexSig Unit) α} :
    linuxRun (.step (.writeInitialized () b') k) (linuxState lock b a o) a' s' ↔
      linuxRun (k ()) (linuxState lock b' a o) a' s' := by
  refine linux_step (fun _ => rfl) ?_
  simp [linuxMutexExec, linuxState, LinuxMutexes.setMutex, update_unit]

@[simp] theorem linux_writeLock {lock' : Option Addr} {k : Unit → Prog (linuxMutexSig Unit) α} :
    linuxRun (.step (.writeLock () lock') k) (linuxState lock b a o) a' s' ↔
      linuxRun (k ()) (linuxState lock' b a o) a' s' := by
  refine linux_step (fun _ => rfl) ?_
  simp [linuxMutexExec, linuxState, LinuxMutexes.setMutex, update_unit]

/-- The one object changes. -/
theorem linuxState_setObject (o' : Option (LinuxMutex Unit)) :
    (linuxState lock b a o).setObject a o' = linuxState lock b a o' := by
  simp [linuxState, LinuxMutexes.setObject]

theorem linuxState_object : (linuxState lock b a o).object a = o := by
  simp [linuxState]

@[simp] theorem linux_init {k : Bool → Prog (linuxMutexSig Unit) α} :
    linuxRun (.step (.pthreadMutexInit (some a)) k) (linuxState lock b a (some .raw)) a' s' ↔
      linuxRun (k true) (linuxState lock b a (some (.ready none))) a' s' := by
  refine linux_step (fun _ => rfl) ?_
  simp [linuxMutexExec, linuxState_object, linuxState_setObject]

@[simp] theorem linux_free {k : Unit → Prog (linuxMutexSig Unit) α} :
    linuxRun (.step (.free (some a)) k) (linuxState lock b a (some .raw)) a' s' ↔
      linuxRun (k ()) (linuxState lock b a none) a' s' := by
  refine linux_step (fun _ => rfl) ?_
  simp [linuxMutexExec, linuxState_object, linuxState_setObject]

variable {held : Bool}

/-- `pthread_mutex_destroy` refuses a held mutex. -/
@[simp] theorem linux_destroy {k : Bool → Prog (linuxMutexSig Unit) α} :
    linuxRun (.step (.pthreadMutexDestroy (some a)) k)
        (linuxState lock b a (some (.ready (holder held)))) a' s' ↔
      linuxRun (k (!held)) (linuxState lock b a
        (some (if held then .ready (holder held) else .raw))) a' s' := by
  refine linux_step (fun _ => rfl) ?_
  cases held <;> simp [linuxMutexExec, linuxState_object, linuxState_setObject, holder]

@[simp] theorem linux_lock {k : Bool → Prog (linuxMutexSig Unit) α} :
    linuxRun (.step (.pthreadMutexLock (some a)) k)
        (linuxState lock b a (some (.ready (holder false)))) a' s' ↔
      linuxRun (k true) (linuxState lock b a (some (.ready (holder true)))) a' s' := by
  refine linux_step (fun _ => rfl) ?_
  simp [linuxMutexExec, linuxState_object, linuxState_setObject, holder]

@[simp] theorem linux_unlock {k : Bool → Prog (linuxMutexSig Unit) α} :
    linuxRun (.step (.pthreadMutexUnlock (some a)) k)
        (linuxState lock b a (some (.ready (holder held)))) a' s' ↔
      linuxRun (k true) (linuxState lock b a (some (.ready (holder false)))) a' s' := by
  refine linux_step (fun _ => rfl) ?_
  simp [linuxMutexExec, linuxState_object, linuxState_setObject, holder]

@[simp] theorem linux_trylock {k : Bool → Prog (linuxMutexSig Unit) α} :
    linuxRun (.step (.pthreadMutexTrylock (some a)) k)
        (linuxState lock b a (some (.ready (holder held)))) a' s' ↔
      linuxRun (k (!held)) (linuxState lock b a (some (.ready (holder true)))) a' s' := by
  refine linux_step (fun _ => rfl) ?_
  cases held <;> simp [linuxMutexExec, linuxState_object, linuxState_setObject, holder]

/-- `malloc` returns some address. -/
@[simp] theorem linux_malloc {k : Option Addr → Prog (linuxMutexSig Unit) α} :
    linuxRun (.step .malloc k) (linuxState lock b a none) a' s' ↔
      ∃ a₁, linuxRun (k (some a₁)) (linuxState lock b a₁ (some .raw)) a' s' := by
  have hexec : ∀ x, luckyMachine.exec x () .malloc (linuxState lock b a none) =
      some (some x, linuxState lock b x (some .raw)) := by
    intro x
    show linuxMutexExec (.addr x) () .malloc _ = _
    simp [linuxMutexExec, linuxState, LinuxMutexes.setObject]
  refine (Machine.returns_step_iff fun _ _ _ _ => rfl).trans ?_
  simp [hexec]

/-- A pointer that leads nowhere is not followed. -/
theorem linux_destroy_nothing {k : Bool → Prog (linuxMutexSig Unit) α} :
    ¬ linuxRun (.step (.pthreadMutexDestroy lock) k) (linuxState lock b a none) a' s' := by
  refine Machine.not_returns fun x => ?_
  show linuxMutexExec .ok () (.pthreadMutexDestroy lock) _ = none
  cases lock with
  | none => rfl
  | some a₁ => simp [linuxMutexExec, linuxState]

end Linux

/-! ### One call -/

/-- Both calls come to an end, with one answer, and lead to the next phase. -/
def InStep (q : Phase) (c : MutexCall Unit) (s₁ : Spin w) (s₂ : Linux) : Prop :=
  (∃ a s₁', SpinReturns c s₁ a s₁') ∧ (∃ a s₂', LinuxReturns c s₂ a s₂') ∧
    ∀ a₁ s₁' a₂ s₂', SpinReturns c s₁ a₁ s₁' → LinuxReturns c s₂ a₂ s₂' →
      a₁ = a₂ ∧ Rel (q.next c) s₁' s₂'

/-- A call with `NULL` is answered at once; the others are about the mutex. -/
theorem call_cases (w : Nat) (c : MutexCall Unit) :
    (∃ a, (spinMutex c : Prog (spinSig Unit w) _) = .ret a ∧ linuxMutex c = .ret a ∧
      (∀ q, Phase.next q c = q) ∧ ∀ q, Proper q c) ∨
    c = .init (some ()) ∨ c = .destroy (some ()) ∨ c = .lock (some ()) ∨ c = .unlock (some ()) ∨
      c = .trylock (some ()) ∨ c = .isLocked (some ()) := by
  have hq : ∀ P : Phase → Prop, P .uninit → P (.ready false) → P (.ready true) → ∀ q, P q := by
    intro P h₁ h₂ h₃ q
    rcases q with _ | _ | _
    · exact h₁
    · exact h₂
    · exact h₃
  rcases c with (_ | m) | (_ | m) | (_ | m) | (_ | m) | (_ | m) | (_ | m)
  all_goals first
    | exact Or.inl ⟨_, rfl, rfl, hq _ rfl rfl rfl, hq _ trivial trivial trivial⟩
    | simp

section Calls

variable {lock : Option Addr} {a : Addr} {held : Bool}

theorem inStep_init : InStep .uninit (.init (some ())) (spinState false false : Spin w)
    (linuxState lock false a none) := by
  simp [InStep, SpinReturns, LinuxReturns, spinMutex, linuxMutex, ttMutexInit, ttPlatformMutexInit,
    Rel, Phase.next]
  rintro a₁ s₁' a₂ s₂' rfl rfl rfl a' rfl
  exact ⟨rfl, rfl, a', rfl⟩

theorem inStep_destroy : InStep (.ready false) (.destroy (some ())) (spinState true false : Spin w)
    (linuxState (some a) true a (some (.ready (holder false)))) := by
  simp [InStep, SpinReturns, LinuxReturns, spinMutex, linuxMutex, ttMutexDestroy,
    ttPlatformMutexDestroy, Rel, Phase.next]
  rintro a₁ s₁' a₂ s₂' rfl rfl rfl rfl
  exact ⟨rfl, rfl, _, _, rfl⟩

theorem inStep_lock : InStep (.ready false) (.lock (some ())) (spinState true false : Spin w)
    (linuxState (some a) true a (some (.ready (holder false)))) := by
  simp [InStep, SpinReturns, LinuxReturns, spinMutex, linuxMutex, ttMutexLock, ttPlatformMutexLock,
    ttPlatformMutexOn, Rel, Phase.next]
  rintro a₁ s₁' a₂ s₂' rfl rfl rfl rfl
  exact ⟨rfl, rfl, a, rfl⟩

theorem inStep_unlock : InStep (.ready true) (.unlock (some ())) (spinState true true : Spin w)
    (linuxState (some a) true a (some (.ready (holder true)))) := by
  simp [InStep, SpinReturns, LinuxReturns, spinMutex, linuxMutex, ttMutexUnlock,
    ttPlatformMutexUnlock, ttPlatformMutexOn, Rel, Phase.next]
  rintro a₁ s₁' a₂ s₂' rfl rfl rfl rfl
  exact ⟨rfl, rfl, a, rfl⟩

theorem inStep_trylock : InStep (.ready held) (.trylock (some ())) (spinState true held : Spin w)
    (linuxState (some a) true a (some (.ready (holder held)))) := by
  cases held with
  | false =>
      simp [InStep, SpinReturns, LinuxReturns, spinMutex, linuxMutex, ttMutexTrylock,
        ttPlatformMutexTrylock, ttPlatformMutexOn, Rel, Phase.next]
      rintro a₁ s₁' a₂ s₂' rfl rfl rfl rfl
      exact ⟨rfl, rfl, a, rfl⟩
  | true =>
      simp [InStep, SpinReturns, LinuxReturns, spinMutex, linuxMutex, ttMutexTrylock,
        ttPlatformMutexTrylock, ttPlatformMutexOn, Rel, Phase.next]
      rintro a₁ s₁' a₂ s₂' rfl rfl rfl rfl
      exact ⟨rfl, rfl, a, rfl⟩

/-- On Linux the query locks and unlocks a free mutex. -/
theorem inStep_isLocked : InStep (.ready held) (.isLocked (some ())) (spinState true held : Spin w)
    (linuxState (some a) true a (some (.ready (holder held)))) := by
  cases held with
  | false =>
      simp [InStep, SpinReturns, LinuxReturns, spinMutex, linuxMutex, ttMutexIsLocked,
        ttPlatformMutexIsLocked, Rel, Phase.next]
      exact ⟨a, rfl⟩
  | true =>
      simp [InStep, SpinReturns, LinuxReturns, spinMutex, linuxMutex, ttMutexIsLocked,
        ttPlatformMutexIsLocked, Rel, Phase.next]
      exact ⟨a, rfl⟩

theorem inStep_isLocked_uninit : InStep .uninit (.isLocked (some ()))
    (spinState false false : Spin w) (linuxState lock false a none) := by
  simp [InStep, SpinReturns, LinuxReturns, spinMutex, linuxMutex, ttMutexIsLocked,
    ttPlatformMutexIsLocked, Rel, Phase.next]
  exact ⟨_, _, rfl⟩

end Calls

/-- A proper call keeps the two in step. -/
theorem inStep_of_proper {q : Phase} {c : MutexCall Unit} {s₁ : Spin w} {s₂ : Linux}
    (hrel : Rel q s₁ s₂) (hadmits : Admits q c) (hproper : Proper q c) : InStep q c s₁ s₂ := by
  rcases call_cases w c with ⟨x, h₁, h₂, hnext, -⟩ | hc
  · unfold InStep SpinReturns LinuxReturns
    rw [h₁, h₂, hnext]
    refine ⟨⟨x, s₁, spin_ret.mpr ⟨rfl, rfl⟩⟩, ⟨x, s₂, linux_ret.mpr ⟨rfl, rfl⟩⟩, ?_⟩
    intro a₁ s₁' a₂ s₂' hspin hlinux
    obtain ⟨rfl, rfl⟩ := spin_ret.mp hspin
    obtain ⟨rfl, rfl⟩ := linux_ret.mp hlinux
    exact ⟨rfl, hrel⟩
  · cases q with
    | uninit =>
        obtain ⟨rfl, lock, a, rfl⟩ := hrel
        rcases hc with rfl | rfl | rfl | rfl | rfl | rfl
        · exact inStep_init
        · exact absurd hproper id
        · exact absurd hproper id
        · exact absurd hproper id
        · exact absurd hproper id
        · exact inStep_isLocked_uninit
    | ready held =>
        obtain ⟨rfl, a, rfl⟩ := hrel
        rcases hc with rfl | rfl | rfl | rfl | rfl | rfl
        · exact absurd hadmits id
        · cases held with
          | false => exact inStep_destroy
          | true => exact absurd hproper id
        · cases held with
          | false => exact inStep_lock
          | true => exact absurd hadmits id
        · cases held with
          | false => exact absurd hadmits id
          | true => exact inStep_unlock
        · exact inStep_trylock
        · exact inStep_isLocked

/-- An improper call is answered differently, or has no answer on Linux. -/
theorem not_agree_of_improper {q : Phase} {c : MutexCall Unit} {s₁ : Spin w} {s₂ : Linux}
    (hrel : Rel q s₁ s₂) (himproper : ¬ Proper q c) (cs : List (MutexCall Unit)) :
    ¬ Agree (c :: cs) s₁ s₂ := by
  rintro ⟨⟨a₁, s₁', hspin⟩, ⟨a₂, s₂', hlinux⟩, hall⟩
  have heq := (hall a₁ s₁' a₂ s₂' hspin hlinux).1
  unfold SpinReturns at hspin
  unfold LinuxReturns at hlinux
  rcases call_cases w c with ⟨-, -, -, -, hproper⟩ | hc
  · exact himproper (hproper q)
  · cases q with
    | uninit =>
        obtain ⟨rfl, lock, a, rfl⟩ := hrel
        rcases hc with rfl | rfl | rfl | rfl | rfl | rfl
        · exact himproper trivial
        · simp [linuxMutex, ttPlatformMutexDestroy] at hlinux
          exact linux_destroy_nothing hlinux
        · simp [spinMutex, ttMutexLock] at hspin
          simp [linuxMutex, ttPlatformMutexLock, ttPlatformMutexOn, ← heq, ← hspin.1] at hlinux
        · simp [spinMutex, ttMutexUnlock] at hspin
          simp [linuxMutex, ttPlatformMutexUnlock, ttPlatformMutexOn, ← heq, ← hspin.1] at hlinux
        · simp [spinMutex, ttMutexTrylock] at hspin
          simp [linuxMutex, ttPlatformMutexTrylock, ttPlatformMutexOn, ← heq, ← hspin.1] at hlinux
        · exact himproper trivial
    | ready held =>
        obtain ⟨rfl, a, rfl⟩ := hrel
        cases held with
        | false => rcases hc with rfl | rfl | rfl | rfl | rfl | rfl <;> exact himproper trivial
        | true =>
            rcases hc with rfl | rfl | rfl | rfl | rfl | rfl
            · exact himproper trivial
            · simp [spinMutex, ttMutexDestroy] at hspin
              simp [linuxMutex, ttPlatformMutexDestroy, ← heq, ← hspin.1] at hlinux
            · exact himproper trivial
            · exact himproper trivial
            · exact himproper trivial
            · exact himproper trivial

theorem agree_iff {q : Phase} {s₁ : Spin w} {s₂ : Linux} (hrel : Rel q s₁ s₂)
    {cs : List (MutexCall Unit)} (hadmits : Throughout Admits q cs) :
    Agree cs s₁ s₂ ↔ Throughout Proper q cs := by
  induction cs generalizing q s₁ s₂ with
  | nil => exact Iff.rfl
  | cons c cs ih =>
      obtain ⟨hc, hcs⟩ := hadmits
      refine ⟨?_, ?_⟩
      · intro hagree
        have hproper : Proper q c := by
          by_contra himproper
          exact not_agree_of_improper hrel himproper cs hagree
        obtain ⟨⟨a₁, s₁', hspin⟩, ⟨a₂, s₂', hlinux⟩, hall⟩ := hagree
        obtain ⟨-, -, -, hrest⟩ := hall a₁ s₁' a₂ s₂' hspin hlinux
        obtain ⟨-, -, hinstep⟩ := inStep_of_proper hrel hc hproper
        exact ⟨hproper, (ih (hinstep a₁ s₁' a₂ s₂' hspin hlinux).2 hcs).mp hrest⟩
      · rintro ⟨hproper, hrest⟩
        obtain ⟨hspin, hlinux, hinstep⟩ := inStep_of_proper hrel hc hproper
        refine ⟨hspin, hlinux, ?_⟩
        intro a₁ s₁' a₂ s₂' h₁ h₂
        obtain ⟨heq, hrel'⟩ := hinstep a₁ s₁' a₂ s₂' h₁ h₂
        exact ⟨heq, hrel'.same.1, hrel'.same.2, (ih hrel' hcs).mpr hrest⟩

theorem rel_zero : Rel .uninit (spinZero : Spin w) .zero := by
  refine ⟨?_, none, 0, ?_⟩
  · funext u
    simp [spinZero, spinState, word_false]
  · simp [LinuxMutexes.zero, linuxState]

end MutexAgree

open MutexAgree in
/--
**The two implementations agree exactly on proper use.**  For every sequence of
calls on a zero-initialised mutex in which init is called only on a mutex that is
not initialised, lock only on one that is free and unlock only on one that is held
or not initialised: both implementations come to an end at every call, return the
same and leave the same flag and locked state, if and only if lock, unlock and
trylock are called only on an initialised mutex and destroy only on one that is
initialised and free.
-/
theorem ttMutex_agree_iff (w : Nat) {cs : List (MutexCall Unit)}
    (hadmits : Throughout Admits .uninit cs) :
    Agree cs (spinZero : Spin w) .zero ↔ Throughout Proper .uninit cs :=
  agree_iff rel_zero hadmits

open MutexAgree in
/-- A mutex in use, destroyed and initialised again. -/
theorem ttMutex_agree_iff_reinit :
    Agree [.init (some ()), .lock (some ()), .trylock (some ()), .isLocked (some ()),
      .unlock (some ()), .destroy (some ()), .isLocked (some ()), .init (some ())]
      (spinZero : Spin 7) .zero := by
  refine (ttMutex_agree_iff 7 ?_).mpr ?_ <;> simp [Throughout, Admits, Proper,
    MutexAgree.Phase.next]

open MutexAgree in
/-- **They differ** before init, in the code and in what a destroy does, and on a destroy of a held
mutex. -/
theorem ttMutex_disagree :
    (Throughout Admits .uninit [.lock (some ())] ∧
      ¬ Agree [.lock (some ())] (spinZero : Spin 7) .zero) ∧
    (Throughout Admits .uninit [.destroy (some ())] ∧
      ¬ Agree [.destroy (some ())] (spinZero : Spin 7) .zero) ∧
    Throughout Admits .uninit [.init (some ()), .lock (some ()), .destroy (some ())] ∧
      ¬ Agree [.init (some ()), .lock (some ()), .destroy (some ())] (spinZero : Spin 7) .zero := by
  have hdiffer : ∀ cs, Throughout Admits .uninit cs → ¬ Throughout Proper .uninit cs →
      Throughout Admits .uninit cs ∧ ¬ Agree cs (spinZero : Spin 7) .zero := by
    intro cs hadmits himproper
    refine ⟨hadmits, ?_⟩
    rw [agree_iff rel_zero hadmits]
    exact himproper
  refine ⟨hdiffer _ ?_ ?_, hdiffer _ ?_ ?_, hdiffer _ ?_ ?_⟩ <;>
    simp [Throughout, Admits, Proper, MutexAgree.Phase.next]

end TinyTools
