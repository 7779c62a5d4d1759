/-
The mutex objects that the error context leaves behind.

On Linux `tt_error_init` has `tt_mutex_init` allocate an object, and nothing in
`tt_error.c` ever calls `tt_mutex_destroy`.  A call of `tt_error_deinit` that gets the mutex
clears `initialized` and forgets the object, so what is allocated is one object for
the context in use and one for each such call before.

A call is followed over the mutex interface first (`course`), where it makes at most two
mutex calls.  What these do to the objects is then a matter of the Linux functions
alone.
-/
import TinyTools.Proofs.Error.Failure
import Mathlib.Data.Set.Card

namespace TinyTools

open Interleave

namespace Error

variable {F τ : Type}

/-- The addresses of what is allocated. -/
def live (s : LinuxMutexes Unit τ) : Set Addr := {a | s.object a ≠ none}

/-- `pthread_mutex_lock` has succeeded. -/
def tookLock (es : List (linuxMutexSig Unit).Done) : Bool :=
  es.any fun
    | ⟨.pthreadMutexLock _, ok⟩ => ok
    | _ => false

/-- A `tt_error_deinit` that gets the mutex. -/
def abandons : ErrorCall F → List (errorLinuxSig F).Done → Bool
  | .deinit, es => tookLock (Machine.seconds es)
  | _, _ => false

@[simp] theorem tookLock_append (es es' : List (linuxMutexSig Unit).Done) :
    tookLock (es ++ es') = (tookLock es || tookLock es') :=
  List.any_append

theorem abandons_eq_false {c : ErrorCall F} {es : List (errorLinuxSig F).Done}
    (h : tookLock (Machine.seconds es) = false) : abandons c es = false := by
  cases c with
  | deinit => exact h
  | _ => rfl

/-! ### What the mutex calls do to the objects -/

section Objects

variable {t : τ} {s s' : LinuxMutexes Unit τ} {es : List (linuxMutexSig Unit).Done} {a : Addr}

theorem linuxMutexMachine_again (p : (linuxMutexSig Unit).Op) (r : (linuxMutexSig Unit).Res p) :
    (linuxMutexMachine Unit τ).again p r = false := rfl

theorem live_setObject {o : LinuxMutex τ} (h : s.object a ≠ none) :
    live (s.setObject a (some o)) = live s := by
  ext b
  by_cases hb : b = a
  · subst hb
    simp [live, h]
  · simp [live, hb]

theorem live_insert {o : LinuxMutex τ} :
    live (s.setObject a (some o)) = insert a (live s) := by
  ext b
  by_cases hb : b = a
  · subst hb
    simp [live]
  · simp [live, hb]

/-- The mutex is initialised and its object is a pthread mutex. -/
def Ready (s : LinuxMutexes Unit τ) (a : Addr) : Prop :=
  s.mutex () = ⟨some a, true⟩ ∧ ∃ h, s.object a = some (.ready h)

theorem Ready.live_setObject (h : Ready s a) {o : LinuxMutex τ} :
    live (s.setObject a (some o)) = live s := by
  obtain ⟨-, n, hn⟩ := h
  exact Error.live_setObject (by simp [hn])

theorem Ready.setHolder (h : Ready s a) (n : Option τ) : Ready (s.setObject a (some (.ready n))) a :=
  ⟨h.1, n, by simp⟩

/-- `tt_mutex_init` fails and leaves nothing, or the mutex has a new object. -/
theorem run_linux_init {e : TtError}
    (hrun : (linuxMutexMachine Unit τ).Run t (linuxMutex (.init (some ()))) s es e s') :
    (e ≠ .success ∧ s' = s) ∨
      (e = .success ∧ ∃ a, s.object a = none ∧ Ready s' a ∧ live s' = insert a (live s)) := by
  obtain ⟨x, p, s₁, es₁, hmalloc, rfl, h⟩ := (Machine.run_step_iff fun _ => rfl).mp hrun
  rcases linuxMutexExec_malloc (t := t) hmalloc with ⟨a, ha, rfl, rfl⟩ | ⟨rfl, rfl⟩
  · rw [if_neg (by simp)] at h
    obtain ⟨x₂, ok, s₂, es₂, hinit, rfl, h⟩ := (Machine.run_step_iff fun _ => rfl).mp h
    rcases linuxMutexExec_init (t := t) (by simp) hinit with ⟨rfl, rfl⟩ | ⟨rfl, rfl⟩
    · simp only [Bool.not_true, Bool.false_eq_true, if_false] at h
      obtain ⟨x₃, u, s₃, es₃, hwrite, rfl, h⟩ := (Machine.run_step_iff fun _ => rfl).mp h
      cases hwrite
      obtain ⟨x₄, u', s₄, es₄, hwrite', rfl, h⟩ := (Machine.run_step_iff fun _ => rfl).mp h
      cases hwrite'
      obtain ⟨rfl, rfl, rfl⟩ := Machine.run_ret_iff.mp h
      refine Or.inr ⟨rfl, a, ha, ⟨?_, none, ?_⟩, ?_⟩
      · simp
      · simp
      · rw [← live_insert (o := .ready none),
          ← LinuxMutexes.setObject_setObject s a (some (.ready none)) (some .raw)]
        rfl
    · simp only [Bool.not_false, if_true] at h
      obtain ⟨x₃, u, s₃, es₃, hfree, rfl, hret⟩ := (Machine.run_step_iff fun _ => rfl).mp h
      have hs₃ := linuxMutexExec_free (x := x₃) (t := t) (o := .raw) (by simp) hfree
      obtain ⟨rfl, rfl, rfl⟩ := Machine.run_ret_iff.mp hret
      refine Or.inl ⟨by rintro ⟨⟩, ?_⟩
      rw [hs₃, LinuxMutexes.setObject_setObject, LinuxMutexes.setObject_eq_self ha]
  · rw [if_pos rfl] at h
    obtain ⟨rfl, rfl, rfl⟩ := Machine.run_ret_iff.mp h
    exact Or.inl ⟨by rintro ⟨⟩, rfl⟩

/-- Lock and unlock change the holder of the object at most. -/
theorem run_linux_on {call : Option Addr → Prog (linuxMutexSig Unit) Bool} {failed e : TtError}
    (hs : Ready s a)
    (hrun : (linuxMutexMachine Unit τ).Run t (ttPlatformMutexOn call failed (some ())) s es e s') :
    ∃ ok es₁, (linuxMutexMachine Unit τ).Run t (call (some a)) s es₁ ok s' ∧
      es = ⟨.readInitialized (), true⟩ :: ⟨.readLock (), some a⟩ :: es₁ ∧
      e = if ok then .success else failed := by
  obtain ⟨x, initialized, s₁, es₁, hread, rfl, h⟩ := (Machine.run_step_iff fun _ => rfl).mp hrun
  cases hread
  rw [hs.1, if_neg (by simp)] at h
  obtain ⟨x₂, p, s₂, es₂, hlock, rfl, h⟩ := (Machine.run_step_iff fun _ => rfl).mp h
  cases hlock
  obtain ⟨ok, s₃, es₃, es₄, rfl, hcall, h⟩ := (Machine.run_bind_iff linuxMutexMachine_again).mp h
  obtain ⟨rfl, rfl, rfl⟩ := Machine.run_ret_iff.mp h
  rw [hs.1] at hcall ⊢
  exact ⟨ok, es₃, hcall, by simp, rfl⟩

theorem run_linux_lock {e : TtError} (hs : Ready s a)
    (hrun : (linuxMutexMachine Unit τ).Run t (linuxMutex (.lock (some ()))) s es e s') :
    Ready s' a ∧ live s' = live s ∧ (tookLock es = true ↔ e = .success) := by
  obtain ⟨ok, es₁, hcall, rfl, rfl⟩ := run_linux_on hs hrun
  obtain ⟨x, ok', s₁, es₂, hexec, rfl, h⟩ := (Machine.run_step_iff fun _ => rfl).mp hcall
  obtain ⟨rfl, rfl, rfl⟩ := Machine.run_ret_iff.mp h
  obtain ⟨n, hn⟩ := hs.2
  rcases linuxMutexExec_lock hn hexec with ⟨rfl, -, rfl⟩ | ⟨rfl, rfl⟩
  · exact ⟨hs.setHolder _, hs.live_setObject, by simp [tookLock]⟩
  · exact ⟨hs, rfl, by simp [tookLock]⟩

theorem run_linux_unlock {e : TtError} (hs : Ready s a)
    (hrun : (linuxMutexMachine Unit τ).Run t (linuxMutex (.unlock (some ()))) s es e s') :
    Ready s' a ∧ live s' = live s ∧ tookLock es = false := by
  obtain ⟨ok, es₁, hcall, rfl, rfl⟩ := run_linux_on hs hrun
  obtain ⟨x, ok', s₁, es₂, hexec, rfl, h⟩ := (Machine.run_step_iff fun _ => rfl).mp hcall
  obtain ⟨rfl, rfl, rfl⟩ := Machine.run_ret_iff.mp h
  obtain ⟨n, hn⟩ := hs.2
  rcases linuxMutexExec_unlock (t := t) hn hexec with ⟨rfl, rfl⟩ | ⟨rfl, rfl⟩
  · exact ⟨hs.setHolder _, hs.live_setObject, by simp [tookLock]⟩
  · exact ⟨hs, rfl, by simp [tookLock]⟩

end Objects

/-! ### One call -/

section Calls

variable {t : τ} {s s' : LinuxMutexes Unit τ} {calls : List (errorSig F).Done}
  {es : List (linuxMutexSig Unit).Done}

theorem val_injective {m : MutexCall Unit} {r r' : m.Res} (h : m.val r = m.val r') : r = r' := by
  cases m with
  | isLocked mutex => exact TtVal.bool.inj h
  | _ => exact TtVal.err.inj h

/-- Mutex calls are served one after the other. -/
theorem serves_nil (hcalls : mutexCalls calls = [])
    (h : (linuxMutexMachine Unit τ).Serves t linuxMutex (Machine.seconds calls) s es s') :
    es = [] ∧ s' = s := by
  rw [mutexCalls, List.map_eq_nil_iff] at hcalls
  rw [hcalls] at h
  cases h
  exact ⟨rfl, rfl⟩

theorem serves_one {m : MutexCall Unit} {r : m.Res} (hcalls : mutexCalls calls = [(m, m.val r)])
    (h : (linuxMutexMachine Unit τ).Serves t linuxMutex (Machine.seconds calls) s es s') :
    (linuxMutexMachine Unit τ).Run t (linuxMutex m) s es r s' := by
  obtain ⟨⟨m', r'⟩, hseconds, hd⟩ := List.map_eq_singleton_iff.mp hcalls
  rw [hseconds] at h
  cases h with
  | cons hrun hrest =>
      cases hrest
      obtain ⟨rfl, hval⟩ := Prod.mk.inj hd
      rw [List.append_nil, ← val_injective hval]
      exact hrun

theorem serves_two {m n : MutexCall Unit} {r : m.Res} {q : n.Res}
    (hcalls : mutexCalls calls = [(m, m.val r), (n, n.val q)])
    (h : (linuxMutexMachine Unit τ).Serves t linuxMutex (Machine.seconds calls) s es s') :
    ∃ s₁ es₁ es₂, es = es₁ ++ es₂ ∧ (linuxMutexMachine Unit τ).Run t (linuxMutex m) s es₁ r s₁ ∧
      (linuxMutexMachine Unit τ).Run t (linuxMutex n) s₁ es₂ q s' := by
  obtain ⟨⟨m₁, r₁⟩, rest, hseconds, hd, hrest⟩ := List.map_eq_cons_iff.mp hcalls
  obtain ⟨⟨m₂, r₂⟩, rfl, hd'⟩ := List.map_eq_singleton_iff.mp hrest
  obtain ⟨rfl, hval⟩ := Prod.mk.inj hd
  obtain ⟨rfl, hval'⟩ := Prod.mk.inj hd'
  have hr : r₁ = r := val_injective hval
  have hq : r₂ = q := val_injective hval'
  rw [hseconds, hr, hq] at h
  cases h with
  | cons hrun h =>
      cases h with
      | cons hrun' h =>
          cases h
          exact ⟨_, _, _, by rw [List.append_nil], hrun, hrun'⟩

end Calls

/-- What holds between the calls, after `n` of them abandoned the mutex. -/
structure Holds (s : TtErrorContext F × LinuxMutexes Unit τ) (n : Nat) : Prop where
  ready : s.1.initialized = true → ∃ a, Ready s.2 a
  count : (live s.2).encard = (if s.1.initialized then 1 else 0) + n

theorem Holds.start : Holds ((.zero, .zero) : TtErrorContext F × LinuxMutexes Unit τ) 0 := by
  refine ⟨by rintro ⟨⟩, ?_⟩
  simp [live, LinuxMutexes.zero, TtErrorContext.zero]

section Steps

variable {t : τ} {s s' : TtErrorContext F × LinuxMutexes Unit τ} {n : Nat} {c : ErrorCall F}

/-- A call that gets the mutex keeps the object, also where it clears `initialized`. -/
theorem Holds.used (hs : Holds s n) (hx : s.1.initialized = true) (hc : c ≠ .init)
    (hctx : s'.1 = effect c s.1) (hready : ∃ a, Ready s'.2 a) (hlive : live s'.2 = live s.2)
    {es : List (errorLinuxSig F).Done} (htook : tookLock (Machine.seconds es) = true) :
    Holds s' (n + if abandons c es then 1 else 0) := by
  have hcount := hs.count
  rw [hx, if_pos rfl] at hcount
  by_cases hdeinit : c = .deinit
  · subst hdeinit
    have hfalse : s'.1.initialized = false := by
      rw [hctx, effect_deinit hx]
    refine ⟨by simp [hfalse], ?_⟩
    rw [hlive, hcount, hfalse, show abandons .deinit es = true from htook, add_comm]
    simp
  · have htrue : s'.1.initialized = true := by
      rw [hctx, effect_initialized hdeinit hx]
    have hkept : abandons c es = false := by
      cases c with
      | deinit => exact absurd rfl hdeinit
      | _ => rfl
    refine ⟨fun _ => hready, ?_⟩
    rw [hlive, hcount, htrue, hkept]
    simp

/-- What one call does to the balance. -/
theorem Holds.step (hs : Holds s n) {es : List (errorLinuxSig F).Done} {v : TtVal}
    (hrun : (errorLinuxSys F τ).Run t ((errorLinuxSys F τ).body c) s es v s') :
    Holds s' (n + if abandons c es then 1 else 0) := by
  have : Nonempty LinuxChoice := ⟨.ok⟩
  obtain ⟨calls, hcalls, hserves⟩ :=
    Machine.run_link (M := errorMachine F τ LinuxChoice) (N := linuxMutexMachine Unit τ)
      (fun _ _ => rfl) linuxMutexMachine_again anyAnswer hrun
  -- a call that leaves everything as it was
  have hkept : s'.1 = s.1 → s'.2 = s.2 → tookLock (Machine.seconds es) = false →
      Holds s' (n + if abandons c es then 1 else 0) := by
    intro hx hobjects htook
    rw [show s' = s from Prod.ext hx hobjects, abandons_eq_false htook]
    exact hs
  -- a call that gets the mutex, whatever becomes of its unlock
  have hused : ∀ e, s.1.initialized = true → c ≠ .init →
      mutexCalls calls = [(.lock (some ()), .err .success), (.unlock (some ()), .err e)] →
      s'.1 = effect c s.1 → Holds s' (n + if abandons c es then 1 else 0) := by
    intro e hx hc htwo hctx
    obtain ⟨a, hready⟩ := hs.ready hx
    obtain ⟨s₁, es₁, es₂, hes, hlock, hunlock⟩ :=
      serves_two (m := .lock (some ())) (n := .unlock (some ())) (r := .success) (q := e) htwo hserves
    obtain ⟨hready₁, hlive₁, htook⟩ := run_linux_lock hready hlock
    obtain ⟨hready₂, hlive₂, -⟩ := run_linux_unlock hready₁ hunlock
    refine hs.used hx hc hctx ⟨a, hready₂⟩ (hlive₂.trans hlive₁) ?_
    rw [hes, tookLock_append, htook.mpr rfl, Bool.true_or]
  cases course hcalls with
  | refused hno hnone hinv hx =>
      obtain ⟨hes, hobjects⟩ := serves_nil hnone hserves
      exact hkept hx hobjects (by rw [hes]; rfl)
  | shut e he hgo hone hinv hx =>
      by_cases hc : c = .init
      · subst hc
        have hserved := serves_one (m := .init (some ())) (r := e) hone hserves
        rcases run_linux_init hserved with ⟨-, hobjects⟩ | ⟨hsuccess, -⟩
        · refine ⟨?_, ?_⟩
          · rw [hx, hobjects]
            exact hs.ready
          · rw [hx, hobjects]
            exact hs.count
        · exact absurd hsuccess he
      · rw [proceeds_iff hc] at hgo
        rw [entry_eq hc] at hone
        obtain ⟨a, hready⟩ := hs.ready hgo
        have hserved := serves_one (m := .lock (some ())) (r := e) hone hserves
        obtain ⟨hready', hlive, htook⟩ := run_linux_lock hready hserved
        have hfailed : tookLock (Machine.seconds es) = false :=
          Bool.eq_false_iff.mpr fun h => he (htook.mp h)
        refine ⟨fun _ => ⟨a, hready'⟩, ?_⟩
        rw [hlive, hx, abandons_eq_false hfailed]
        exact hs.count
  | stuck e he hx hc htwo hinv hctx => exact hused e hx hc htwo hctx
  | completed hgo hall hctx hsets =>
      by_cases hc : c = .init
      · subst hc
        have hserved := serves_one (m := .init (some ())) (r := .success) hall hserves
        rcases run_linux_init hserved with ⟨hne, -⟩ | ⟨-, a, hnew, hready, hlive⟩
        · exact absurd rfl hne
        · have hx : s.1.initialized = false := hgo
          have hx' : s'.1.initialized = true := by
            rw [hctx, effect_init hx]
          refine ⟨fun _ => ⟨a, hready⟩, ?_⟩
          rw [hlive, Set.encard_insert_of_notMem (by simp [live, hnew]), hs.count, hx, hx']
          simp [abandons, add_comm]
      · rw [entry_eq hc, leave_eq hc] at hall
        exact hused .success ((proceeds_iff hc).mp hgo) hc hall hctx

end Steps

/-- The calls of a log that abandoned the mutex. -/
def abandoned (L : List (LogEntry (errorLinuxSig F) τ (ErrorCall F) TtVal)) : Nat :=
  L.countP fun e => abandons e.call e.done

theorem holds {L : List (LogEntry (errorLinuxSig F) τ (ErrorCall F) TtVal)}
    {s : TtErrorContext F × LinuxMutexes Unit τ}
    (h : Sequential (errorLinuxSys F τ) (.zero, .zero) L s) : Holds s (abandoned L) := by
  induction h with
  | nil => exact .start
  | @snoc L s s' e _ hrun ih =>
      have hs' := ih.step hrun
      rwa [abandoned, List.countP_append, List.countP_singleton, ← abandoned]

end Error

open Error

/--
**The error context owns its mutex exactly until the first deinit.** After any calls
from program start, whatever the allocator and pthreads do, what is allocated is the
object of the context in use and one for each `tt_error_deinit` that got the mutex.  So
the balance is right if and only if there was no such call.
-/
theorem ttError_objects_iff {F τ : Type}
    {L : List (LogEntry (errorLinuxSig F) τ (ErrorCall F) TtVal)}
    {s : TtErrorContext F × LinuxMutexes Unit τ}
    (h : Sequential (errorLinuxSys F τ) (.zero, .zero) L s) :
    (live s.2).encard = (if s.1.initialized then 1 else 0) + abandoned L ∧
      ((live s.2).encard = (if s.1.initialized then 1 else 0) ↔
        ∀ e ∈ L, abandons e.call e.done = false) := by
  have hcount := (holds h).count
  refine ⟨hcount, ?_⟩
  have hzero : abandoned L = 0 ↔ ∀ e ∈ L, abandons e.call e.done = false := by
    rw [abandoned, List.countP_eq_zero]
    simp
  rw [← hzero, hcount]
  cases s.1.initialized with
  | false => simp
  | true =>
      rw [if_pos rfl]
      norm_cast
      omega

/-- An error is set and cleared in a context that stays. -/
theorem ttError_objects_kept :
    ∃ (L : List (LogEntry (errorLinuxSig Nat) Nat (ErrorCall Nat) TtVal))
      (s : TtErrorContext Nat × LinuxMutexes Unit Nat),
      Sequential (errorLinuxSys Nat Nat) (.zero, .zero) L s ∧
        L.map LogEntry.call = [.init, .setLast .busy] ∧ s.1.lastError = .busy ∧
        (live s.2).encard = 1 := by
  obtain ⟨es₁, s₁, es₂, s₂, h₁, h₂, hbusy, htrue⟩ : ∃ es₁ s₁ es₂ s₂,
      (errorLinuxSys Nat Nat).Run 0 ((errorLinuxSys Nat Nat).body .init) (.zero, .zero) es₁
        (.err .success) s₁ ∧
      (errorLinuxSys Nat Nat).Run 0 ((errorLinuxSys Nat Nat).body (.setLast .busy)) s₁ es₂
        (.err .success) s₂ ∧ s₂.1.lastError = .busy ∧ s₂.1.initialized = true :=
    ⟨_, _, _, _, Machine.run_of_eval [.ok, .addr 5, .ok, .ok, .ok, .ok, .ok, .ok] rfl,
      Machine.run_of_eval (List.replicate 9 .ok) rfl, rfl, rfl⟩
  have h₀ : Sequential (errorLinuxSys Nat Nat) (.zero, .zero) [] (.zero, .zero) := .nil
  have h := (h₀.snoc (e := ⟨0, 0, .init, es₁, .err .success⟩) h₁).snoc
    (e := ⟨1, 0, .setLast .busy, es₂, .err .success⟩) h₂
  refine ⟨_, _, h, rfl, hbusy, ?_⟩
  have hcount := (ttError_objects_iff h).2.mpr (by simp [abandons])
  rw [hcount, htrue, if_pos rfl]

/-- **An object left behind.** The context is initialised and deinitialised. -/
theorem ttError_objects_left :
    ∃ (L : List (LogEntry (errorLinuxSig Nat) Nat (ErrorCall Nat) TtVal))
      (s : TtErrorContext Nat × LinuxMutexes Unit Nat),
      Sequential (errorLinuxSys Nat Nat) (.zero, .zero) L s ∧
        L.map LogEntry.call = [.init, .deinit] ∧
        L.map LogEntry.val = [.err .success, .err .success] ∧
        s.1.initialized = false ∧ s.2.object 5 = some (.ready none) ∧
        (live s.2).encard ≠ if s.1.initialized then 1 else 0 := by
  obtain ⟨es₁, s₁, es₂, s₂, h₁, h₂, hfalse, hobject⟩ : ∃ es₁ s₁ es₂ s₂,
      (errorLinuxSys Nat Nat).Run 0 ((errorLinuxSys Nat Nat).body .init) (.zero, .zero) es₁
        (.err .success) s₁ ∧
      (errorLinuxSys Nat Nat).Run 0 ((errorLinuxSys Nat Nat).body .deinit) s₁ es₂
        (.err .success) s₂ ∧ s₂.1.initialized = false ∧ s₂.2.object 5 = some (.ready none) :=
    ⟨_, _, _, _, Machine.run_of_eval [.ok, .addr 5, .ok, .ok, .ok, .ok, .ok, .ok] rfl,
      Machine.run_of_eval (List.replicate 9 .ok) rfl, rfl, rfl⟩
  have h₀ : Sequential (errorLinuxSys Nat Nat) (.zero, .zero) [] (.zero, .zero) := .nil
  have h := (h₀.snoc (e := ⟨0, 0, .init, es₁, .err .success⟩) h₁).snoc
    (e := ⟨1, 0, .deinit, es₂, .err .success⟩) h₂
  refine ⟨_, _, h, rfl, rfl, hfalse, hobject, ?_⟩
  rw [hfalse, if_neg Bool.false_ne_true, ne_eq, Set.encard_eq_zero]
  intro hempty
  have hmem : (5 : Addr) ∈ live s₂.2 := by simp [live, hobject]
  rw [hempty] at hmem
  exact hmem

end TinyTools
