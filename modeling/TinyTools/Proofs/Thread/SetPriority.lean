/-
What `tt_thread_set_priority` sets, and what it says about it.

A record has the handle itself, and `tt_thread_join` and `tt_thread_destroy` use it as
it is.  `tt_platform_thread_set_priority` takes it for the address of a handle: it acts
on the thread only if the word found there happens to be the handle again.  It looks at
nothing that `pthread_setschedparam` returns, so it says `TT_SUCCESS` and stores the new
priority also where the OS has refused it, for one because the thread has ended.
-/
import TinyTools.Proofs.Thread.Usage

namespace TinyTools

open Interleave

namespace ThreadPriority

open ThreadUsage ThreadMapping

variable {N : Nat} {H : Type}

/-- The word at the address that the handle is taken for is the handle. -/
def Points (es : List (schedSig H).Done) (handle : H) : Prop :=
  ⟨.inl (.readPointer (some handle)), handle⟩ ∈ es

/-- The OS call has succeeded. -/
def OsCallSucceeds (es : List (schedSig H).Done) : Prop :=
  ∃ h p, ⟨.inl (.pthreadSetschedparam h p), true⟩ ∈ es

/-- A call on the record at `a` acts on the thread started for it, and says what the OS has said. -/
structure SetsPriority (cfg : SchedConfig) (s : SchedState N H) (a : Addr) (priority : Int)
    (es : List (schedSig H).Done) (result : TtError) (s' : SchedState N H) : Prop where
  defined : ¬ Overflown es
  handle : ∀ h p ok, ⟨.inl (.pthreadSetschedparam h p), ok⟩ ∈ es →
    s.threads.handleOf a = some h ∧ ∃ o, s.threads.startedFor a = some o ∧ o.handle = h
  mapped : ∀ h p ok, ⟨.inl (.pthreadSetschedparam h p), ok⟩ ∈ es →
    cfg.minPrio ≤ p ∧ p ≤ cfg.maxPrio ∧
      ∃ level, TtThreadPriority.ofInt priority = some level ∧ p = ThreadMapping.mapped cfg level
  reports : result = .success ↔ OsCallSucceeds es
  stored : result = .success →
    ∃ r, s'.threads.mem a = some r ∧ TtThreadPriority.ofInt priority = some r.priority
  unchanged : result ≠ .success → s' = s

/-- The argument is no level; or the width of the range is small enough for the level, the handle
points to itself, and the OS call succeeds. -/
def Meets (cfg : SchedConfig) (s : SchedState N H) (a : Addr) (priority : Int)
    (es : List (schedSig H).Done) : Prop :=
  TtThreadPriority.ofInt priority = none ∨
    ∃ level handle, TtThreadPriority.ofInt priority = some level ∧ Fits cfg level ∧
      s.threads.handleOf a = some handle ∧ Points es handle ∧ OsCallSucceeds es

section Calls

variable {cfg : SchedConfig} {a : Addr} {level : TtThreadPriority} {handle : Option H} {h : H}
  {p : Int} {ok : Bool}

theorem not_overflown_asked : ¬ Overflown (asked cfg : List (schedSig H).Done) := by
  simp [Overflown, asked]

theorem not_overflown_called : ¬ Overflown (called a level handle h p ok) := by
  simp [Overflown, called]

theorem not_mem_asked {h : H} {p : Int} {ok : Bool} :
    ⟨.inl (.pthreadSetschedparam h p), ok⟩ ∉ (asked cfg : List (schedSig H).Done) := by
  simp [asked]

theorem mem_steps {h' : H} {p' : Int} {ok' : Bool} :
    ⟨.inl (.pthreadSetschedparam h' p'), ok'⟩ ∈ asked cfg ++ [] ++ called a level handle h p ok ↔
      h' = h ∧ p' = p ∧ ok' = ok := by
  simp [asked, called, and_assoc]

theorem points_steps {h' : H} :
    Points (asked cfg ++ [] ++ called a level handle h p ok) h' ↔ some h' = handle ∧ h' = h := by
  simp [Points, asked, called]

end Calls

section Function

variable [DecidableEq H] {cfg : SchedConfig} {s s' : SchedState N H} {a : Addr} {r : TtThread H}
  {priority : Int} {es : List (schedSig H).Done} {result : TtError}

omit [DecidableEq H] in
/-- Refusing an argument does no harm. -/
theorem setsPriority_invalid :
    SetsPriority cfg s a priority (asked cfg) .invalidParam s := by
  refine ⟨not_overflown_asked, ?_, ?_, ?_, ?_, fun _ => rfl⟩
  · intro h p ok hmem
    exact absurd hmem not_mem_asked
  · intro h p ok hmem
    exact absurd hmem not_mem_asked
  · refine ⟨fun hresult => TtError.noConfusion hresult, ?_⟩
    rintro ⟨h, p, hmem⟩
    exact absurd hmem not_mem_asked
  · intro hresult
    cases hresult

omit [DecidableEq H] in
theorem handleOf_eq (hr : s.threads.mem a = some r) : s.threads.handleOf a = r.handle := by
  unfold ThreadState.handleOf
  rw [hr]
  rfl

omit [DecidableEq H] in
/-- What the function has done where nothing goes wrong. -/
theorem Meets.called {level : TtThreadPriority} {h : H} {p : Int} {ok : Bool}
    (hr : s.threads.mem a = some r) (hpriority : TtThreadPriority.ofInt priority = some level)
    (hmapped : Fits cfg level ∧ es = [] ∧ p = ThreadMapping.mapped cfg level ∨
      ¬ Fits cfg level ∧ Overflown es)
    (hmeets : Meets cfg s a priority (asked cfg ++ es ++ called a level r.handle h p ok)) :
    es = [] ∧ p = ThreadMapping.mapped cfg level ∧ r.handle = some h ∧ ok = true := by
  rcases hmeets with hnone | ⟨level', handle, hlevel, hfits, hh, hpoints, h', p', hok⟩
  · rw [hpriority] at hnone
    cases hnone
  rw [hpriority] at hlevel
  cases hlevel
  rcases hmapped with ⟨-, rfl, rfl⟩ | ⟨hnot, -⟩
  · obtain ⟨-, rfl⟩ := points_steps.mp hpoints
    obtain ⟨-, -, htrue⟩ := mem_steps.mp hok
    exact ⟨rfl, rfl, (handleOf_eq hr).symm.trans hh, htrue.symm⟩
  · exact absurd hfits hnot

omit [DecidableEq H] in
theorem not_ok {level : TtThreadPriority} {h : H} {p : Int} {ok : Bool} {handle : Option H}
    (hfails : ¬ OsCallSucceeds (asked cfg ++ es ++ called a level handle h p ok)) : ok = false := by
  cases ok with
  | false => rfl
  | true =>
      exact absurd ⟨h, p, List.mem_append_right _ (.tail _ (.tail _ (.head _)))⟩ hfails

/-- A call acts on its thread and says what the OS has said exactly where it can. -/
theorem setsPriority_iff (hr : s.threads.mem a = some r) {o : OsThread H}
    (ho : s.threads.startedFor a = some o) (hro : r.handle = some o.handle)
    (hout : Outcome cfg a r priority s es result s') :
    SetsPriority cfg s a priority es result s' ↔ Meets cfg s a priority es := by
  cases hout with
  | invalid hpriority =>
      exact iff_of_true setsPriority_invalid (Or.inl hpriority)
  | @set level es₁ h p ok s₁ hpriority hmapped hcall =>
      refine ⟨?_, ?_⟩
      · intro hsets
        have hdefined := hsets.defined
        rw [overflown_append, overflown_append] at hdefined
        rcases hmapped with ⟨hfits, rfl, rfl⟩ | ⟨-, hover⟩
        · obtain ⟨hh, -⟩ := hsets.handle h _ ok (mem_steps.mpr ⟨rfl, rfl, rfl⟩)
          refine Or.inr ⟨level, h, hpriority, hfits, hh, ?_, hsets.reports.mp rfl⟩
          exact points_steps.mpr ⟨hh.symm.trans (handleOf_eq hr), rfl⟩
        · exact absurd (Or.inl (Or.inr hover)) hdefined
      · intro hmeets
        obtain ⟨rfl, rfl, hh, rfl⟩ := hmeets.called hr hpriority hmapped
        have hcalled : ∀ h' p' ok', ⟨.inl (.pthreadSetschedparam h' p'), ok'⟩ ∈ asked cfg ++ [] ++
            ThreadMapping.called a level r.handle h (mapped cfg level) true →
              h' = h ∧ p' = mapped cfg level ∧ ok' = true := fun _ _ _ => mem_steps.mp
        refine ⟨?_, ?_, ?_, iff_of_true rfl ⟨_, _, mem_steps.mpr ⟨rfl, rfl, rfl⟩⟩, ?_, ?_⟩
        · rw [overflown_append, overflown_append]
          rintro ((hover | ⟨e, he, -⟩) | hover)
          · exact not_overflown_asked hover
          · cases he
          · exact not_overflown_called hover
        · intro h' p' ok' hmem
          obtain ⟨rfl, -, -⟩ := hcalled _ _ _ hmem
          exact ⟨(handleOf_eq hr).trans hh, o, ho, Option.some.inj (hro.symm.trans hh)⟩
        · intro h' p' ok' hmem
          obtain ⟨-, rfl, -⟩ := hcalled _ _ _ hmem
          have hrange := mapped_range cfg level
          exact ⟨hrange.1, hrange.2, level, hpriority, rfl⟩
        · intro _
          exact ⟨{ r with priority := level }, ThreadState.setMem_mem_self .., hpriority⟩
        · intro hfailed
          exact absurd rfl hfailed

/-- The function can take its next step in every state. -/
theorem setPriority_enabled {τ : Type} {t : τ} (handle : H) (p : (schedSig H).Op)
    (s : SchedState N H) :
    ∃ x r s', (schedMachine cfg N H τ).exec x t p s = some (r, s') := by
  rcases p with p | p
  · cases p with
    | schedGetPriorityMin => exact ⟨.thread .ok, cfg.minPrio, s, rfl⟩
    | schedGetPriorityMax => exact ⟨.thread .ok, cfg.maxPrio, s, rfl⟩
    | overflow => exact ⟨.int 0, (0 : Int), s, rfl⟩
    | readPointer _ => exact ⟨.word handle, handle, s, rfl⟩
    | pthreadSetschedparam _ _ => exact ⟨.thread .fail, false, s, rfl⟩
  · exact ThreadUsage.enabled p s

end Function

end ThreadPriority

open ThreadUsage ThreadMapping ThreadPriority in
/--
**`tt_thread_set_priority` acts on the right thread and reports failure, exactly if
nothing goes wrong.**  After any calls of the thread API by clients that pass their own
records, the priority of one of those records is set.  The function returns.  It is as
it should be exactly if the argument is no level, or else the width of the range is
small enough, the handle of the record is the address of a word that is the handle
again, and `pthread_setschedparam` succeeds.  The levels are mapped in their order.
-/
theorem ttThreadSetPriority_sets_iff {N : Nat} {H τ : Type} [DecidableEq H] {cfg : SchedConfig}
    {L : List (SchedEntry H τ)} {s : SchedState N H}
    (h : Calls (schedSys cfg N H τ) Outside Own .zero L s) {a : Addr} (ha : owned L a = true)
    (t : τ) (priority : Int) :
    (∃ es result s',
      (schedMachine cfg N H τ).Run t (ttThreadSetPriority (some a) priority) s es result s') ∧
    (∀ es result s',
      (schedMachine cfg N H τ).Run t (ttThreadSetPriority (some a) priority) s es result s' →
        (SetsPriority cfg s a priority es result s' ↔ Meets cfg s a priority es)) ∧
    ∀ m n level level', TtThreadPriority.ofInt m = some level →
      TtThreadPriority.ofInt n = some level' → m ≤ n → mapped cfg level ≤ mapped cfg level' := by
  have hkept := kept_of_calls h
  obtain ⟨r, o, hr, ho, hro, -⟩ := hkept.sound a ha
  refine ⟨?_, ?_, fun _ _ _ _ => mapped_mono cfg⟩
  · exact Machine.run_of_every (fun _ _ => rfl) (fun p _ s => setPriority_enabled o.handle p s)
      (Prog.every_of_forall (P := fun _ => True) (fun _ => trivial) _) s
  · intro es result s' hrun
    exact setsPriority_iff hr ho hro (run_ttThreadSetPriority hr hrun)

/-- What the environment chooses in a `tt_thread_set_priority` that finds the word `h` at the
handle. -/
def setChoices (h : Nat) : List (SchedChoice Nat) :=
  [.thread .ok, .thread .ok, .thread .ok, .word h, .thread .ok, .thread .ok]

open ThreadUsage ThreadMapping ThreadPriority in
/-- The thread is there, and the handle points to itself. -/
theorem ttThreadSetPriority_sets_live :
    ∃ (L : List (SchedEntry Nat Unit)) (s : SchedState 1 Nat),
      Calls (schedSys linuxSched 1 Nat Unit) Outside Own .zero L s ∧
      L.map LogEntry.call = [.threadCall (.create (some 1) none (some 7) none)] ∧
      ∃ es s', (schedMachine linuxSched 1 Nat Unit).Run () (ttThreadSetPriority (some 10) 2) s es
        .success s' ∧ SetsPriority linuxSched s 10 2 es .success s' := by
  obtain ⟨es₁, s₁, es₂, s₂, h₁, h₂, hhanded, hhandle, hpoints, hok⟩ : ∃ es₁ s₁ es₂ s₂,
      (schedSys linuxSched 1 Nat Unit).Run () ((schedSys linuxSched 1 Nat Unit).body
        (.threadCall (.create (some 1) none (some 7) none))) .zero es₁ (.err .success) s₁ ∧
      (schedMachine linuxSched 1 Nat Unit).Run () (ttThreadSetPriority (some 10) 2) s₁ es₂
        .success s₂ ∧
      ThreadCreate.handed (Machine.seconds es₁) = [10] ∧ s₁.threads.handleOf 10 = some 20 ∧
      Points es₂ 20 ∧ OsCallSucceeds es₂ :=
    ⟨_, _, _, _, Machine.run_of_eval ((createChoices 10 20 3).map .thread) rfl,
      Machine.run_of_eval (setChoices 20) rfl, rfl, rfl, .tail _ (.tail _ (.tail _ (.head _))),
      20, 0, .tail _ (.tail _ (.tail _ (.tail _ (.head _))))⟩
  obtain ⟨hcreate, hown⟩ := calls_create h₁ (a := 10) (by simp [hhanded])
  refine ⟨_, s₁, hcreate, rfl, es₂, s₂, h₂, ?_⟩
  refine ((ttThreadSetPriority_sets_iff hcreate hown () 2).2.1 es₂ .success s₂ h₂).mpr ?_
  exact Or.inr ⟨.high, 20, rfl, by decide, hhandle, hpoints, hok⟩

open ThreadUsage ThreadMapping ThreadPriority in
/-- **The thread has ended, the OS refuses, and the function says `TT_SUCCESS`.** -/
theorem ttThreadSetPriority_unheard :
    ∃ (L : List (SchedEntry Nat Unit)) (s : SchedState 1 Nat),
      Calls (schedSys linuxSched 1 Nat Unit) Outside Own .zero L s ∧ owned L 10 = true ∧
      ∃ es s', (schedMachine linuxSched 1 Nat Unit).Run () (ttThreadSetPriority (some 10) 2) s es
          .success s' ∧ Points es 20 ∧ (s'.threads.mem 10).map (·.priority) = some .high ∧
        (s'.sched 20).priority = (s.sched 20).priority ∧
        ¬ SetsPriority linuxSched s 10 2 es .success s' := by
  obtain ⟨es₁, s₁, h₁, hhanded, hbefore, es₂, s₂, h₂, hpoints, hhigh, hafter, hrefused⟩ : ∃ es₁ s₁,
      (schedSys linuxSched 1 Nat Unit).Run () ((schedSys linuxSched 1 Nat Unit).body
        (.threadCall (.create (some 1) none (some 7) none))) .zero es₁ (.err .success) s₁ ∧
      ThreadCreate.handed (Machine.seconds es₁) = [10] ∧ (s₁.sched 20).priority = 0 ∧ ∃ es₂ s₂,
      (schedMachine linuxSched 1 Nat Unit).Run () (ttThreadSetPriority (some 10) 2)
        { s₁ with sched := Function.update s₁.sched 20 { s₁.sched 20 with ended := true } } es₂
        .success s₂ ∧ Points es₂ 20 ∧ (s₂.threads.mem 10).map (·.priority) = some .high ∧
      (s₂.sched 20).priority = 0 ∧ ¬ OsCallSucceeds es₂ := by
    refine ⟨_, _, Machine.run_of_eval ((createChoices 10 20 3).map .thread) rfl, rfl, rfl, ?_⟩
    refine ⟨_, _, Machine.run_of_eval (setChoices 20) rfl,
      .tail _ (.tail _ (.tail _ (.head _))), rfl, rfl, ?_⟩
    simp [OsCallSucceeds]
  obtain ⟨hcreate, hown⟩ := calls_create h₁ (a := 10) (by simp [hhanded])
  refine ⟨_, _, hcreate.env (.ends s₁ 20), hown, es₂, s₂, h₂, hpoints, hhigh, ?_, ?_⟩
  · rw [hafter]
    simp [hbefore]
  · intro hsets
    exact hrefused (hsets.reports.mp rfl)

end TinyTools
