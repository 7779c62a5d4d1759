/-
`tt_thread_destroy` is all or nothing.

The function unregisters the record before it looks at `is_active`, and a
`pthread_detach` that failed then would leave a record that is in no table and not
freed.  It never comes to that: a record that is terminated is not active any more, as
`tt_thread_join` is the only function that writes either field after the creation and
writes both.
-/
import TinyTools.Proofs.Thread.Usage

namespace TinyTools

open Interleave

namespace ThreadDestroy

variable {N : Nat} {H : Type}

/-- The record at `a` was in one slot, and all that happened is that the slot and the record were
freed. -/
def Removed (s : SchedState N H) (a : Addr) (s' : SchedState N H) : Prop :=
  ∃ i, (∀ j, s.threads.table.holds a j = true ↔ j = i) ∧
    s' = { s with threads.mem := Function.update s.threads.mem a none
                  threads.table := Function.update s.threads.table i .zero }

/-- All or nothing. -/
def AllOrNothing (s : SchedState N H) (a : Addr) (result : TtError) (s' : SchedState N H) : Prop :=
  result = .success ∧ Removed s a s' ∨ result ≠ .success ∧ result ≠ .threadDetach ∧ s' = s

end ThreadDestroy

open ThreadUsage ThreadDestroy in
/--
**`tt_thread_destroy` is all or nothing.**  After any calls of the thread API by clients
that pass their own records, one of those records is destroyed: the function returns,
and either it returns `TT_SUCCESS`, the one slot of the record and the record are
freed and nothing else has changed, or it returns an error other than
`TT_ERROR_THREAD_DETACH` and nothing has changed at all.
-/
theorem ttThreadDestroy_allOrNothing {N : Nat} {H τ : Type} [DecidableEq H] {cfg : SchedConfig}
    {L : List (SchedEntry H τ)} {s : SchedState N H}
    (h : Calls (schedSys cfg N H τ) Outside Own .zero L s) {a : Addr} (ha : owned L a = true)
    (t : τ) :
    (∃ es result s', (schedMachine cfg N H τ).Run t (ttThreadDestroy (some a)).inr s es result s') ∧
    ∀ es result s', (schedMachine cfg N H τ).Run t (ttThreadDestroy (some a)).inr s es result s' →
      AllOrNothing s a result s' := by
  have hkept := kept_of_calls h
  obtain ⟨r, o, hr, -, -, hsettled⟩ := hkept.sound a ha
  refine ⟨?_, ?_⟩
  · refine Machine.run_of_every (fun _ _ => rfl) (P := fun p => ∃ q, p = Sum.inr q) ?_
      (Prog.Every.inr (Prog.every_of_forall (fun q => ⟨q, rfl⟩) _)) s
    rintro p ⟨q, rfl⟩ s
    exact enabled q s
  · intro es result s' hrun
    obtain ⟨es₁, rfl, hrun, hentered⟩ := run_threads (ThreadBody.every_platformThreadDestroy _) hrun
    rcases run_ttThreadDestroy hr hsettled.inactive hrun with
      ⟨hfailed, hdetach, hsame⟩ | ⟨i, hi, rfl, hsame⟩
    · refine Or.inr ⟨hfailed, hdetach, ?_⟩
      rw [hentered.same (by rw [hsame]), hsame]
    · refine Or.inl ⟨rfl, i, fun j => ⟨fun hj => hkept.once j i a hj hi, ?_⟩, ?_⟩
      · rintro rfl
        exact hi
      · rw [hentered.same (by rw [hsame]), hsame]

open ThreadUsage ThreadDestroy in
/-- A thread is created, joined and destroyed. -/
theorem ttThreadDestroy_allOrNothing_joined :
    ∃ (L : List (SchedEntry Nat Unit)) (s : SchedState 1 Nat),
      Calls (schedSys linuxSched 1 Nat Unit) Outside Own .zero L s ∧
      L.map LogEntry.call =
        [.threadCall (.create (some 1) none (some 7) none), .threadCall (.join (some 10))] ∧
      ∃ es s', (schedMachine linuxSched 1 Nat Unit).Run () (ttThreadDestroy (some 10)).inr s es
        .success s' ∧ Removed s 10 s' := by
  obtain ⟨es₁, s₁, es₂, s₂, es₃, s₃, h₁, h₂, h₃, hhanded⟩ : ∃ es₁ s₁ es₂ s₂ es₃ s₃,
      (schedSys linuxSched 1 Nat Unit).Run () ((schedSys linuxSched 1 Nat Unit).body
        (.threadCall (.create (some 1) none (some 7) none))) .zero es₁ (.err .success) s₁ ∧
      (schedSys linuxSched 1 Nat Unit).Run () ((schedSys linuxSched 1 Nat Unit).body
        (.threadCall (.join (some 10)))) s₁ es₂ (.err .success) s₂ ∧
      (schedMachine linuxSched 1 Nat Unit).Run () (ttThreadDestroy (some 10)).inr s₂ es₃
        .success s₃ ∧
      ThreadCreate.handed (Machine.seconds es₁) = [10] :=
    ⟨_, _, _, _, _, _, Machine.run_of_eval ((createChoices 10 20 3).map .thread) rfl,
      Machine.run_of_eval (List.replicate 4 (.thread .ok)) rfl,
      Machine.run_of_eval (List.replicate 4 (.thread .ok)) rfl, rfl⟩
  obtain ⟨hcreate, hown⟩ := calls_create h₁ (a := 10) (by simp [hhanded])
  have hjoin := hcreate.call (e := ⟨1, (), .threadCall (.join (some 10)), es₂, .err .success⟩)
    (by rintro a ⟨⟩; exact hown) h₂
  refine ⟨_, s₂, hjoin, rfl, es₃, s₃, h₃, ?_⟩
  have hall := (ttThreadDestroy_allOrNothing hjoin (a := 10) ((owned_snoc _ _ _).trans hown) ()).2
    es₃ .success s₃ h₃
  rcases hall with ⟨-, hremoved⟩ | ⟨hfailed, -⟩
  · exact hremoved
  · exact absurd rfl hfailed

end TinyTools
