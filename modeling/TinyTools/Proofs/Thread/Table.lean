/-
What the thread table promises.

The table has every record the clients know of, with one exception:
`tt_thread_destroy` may return `TT_ERROR_THREAD_DETACH` with the record already taken
out of the table and not freed.  It does so when it overlaps a join that has stored
`state` but not yet `is_active`, as the thread it then detaches has been joined.

Handles identify records only among threads that have not been joined.  A record
stays in the table after the join, while the OS may give its handle to a new thread.
-/
import TinyTools.Proofs.Thread.Owner

namespace TinyTools

open Interleave

namespace Thread

variable {N : Nat} {H τ : Type} [DecidableEq H]

/-! ### Records that are lost -/

/-- A `pthread_detach` has failed. -/
def DetachFailed (tr : List (ThreadEvent H τ)) : Prop :=
  ∃ id t handle, .prim id t (.inl (.pthreadDetach handle)) false ∈ tr

/-- Runs are followed until a `pthread_detach` fails. -/
def keeping (N : Nat) (H τ : Type) :
    Outline (threadSig H) τ (ThreadState N H) (ThreadCall H) TableVal Unit where
  idle _ := True
  inv v _ := ∀ a, ¬ Lost v.trace a
  stop := DetachFailed
  stop_snoc := by
    rintro tr e ⟨id, t, handle, h⟩
    exact ⟨id, t, handle, List.mem_append_left _ h⟩

section Keeping

variable [DecidableEq τ] {t : τ} {id : Nat} {c : ThreadCall H} {β : Type} {Q : β → Unit → Prop}

/-- The program `m`, in call `c`. -/
abbrev KeepsAll (N : Nat) (t : τ) (id : Nat) (c : ThreadCall H) (m : Prog (threadSig H) β)
    (Q : β → Unit → Prop) : Prop :=
  (keeping N H τ).Wp (threadSys N H τ).toMachine t id c m Q ()

theorem keeps_step {p : (threadSig H).Op} {k : (threadSig H).Res p → Prog (threadSig H) β}
    (hk : ∀ x s r s', (threadMachine N H τ).exec x t p s = some (r, s') →
      (∀ handle, (⟨p, r⟩ : (threadSig H).Done) ≠ ⟨.inl (.pthreadDetach handle), false⟩) →
      KeepsAll N t id c (k r) Q) : KeepsAll N t id c (.step p k) Q := by
  refine Outline.Wp.step (fun _ _ => rfl) ?_
  intro v G _ hinv _ _
  refine ⟨trivial, ?_⟩
  intro x r s hexec hstop
  refine ⟨(), ?_, hk x _ r s hexec ?_⟩
  · intro a hlost
    have hlostiff : Lost (v.prim id t p r s).trace a ↔ Lost v.trace a := lost_snoc fun _ _ => nofun
    exact hinv a (hlostiff.mp hlost)
  · intro handle heq
    cases heq
    exact hstop ⟨id, t, handle, List.mem_append_right _ (.head _)⟩

/-- A program of which any value will do. -/
theorem keeps_all {m : Prog (threadSig H) β} (hQ : ∀ a, Q a ()) : KeepsAll N t id c m Q := by
  induction m with
  | ret a => exact hQ a
  | step p k ih => exact keeps_step fun _ _ r _ _ _ => ih r

omit [DecidableEq H] in
theorem keeps_final {a : TableVal} (ha : ∀ b, c = .destroy (some b) → a ≠ .err .threadDetach) :
    (keeping N H τ).Final t id c a () := by
  intro v G _ hinv _ _ _
  refine ⟨(), trivial, fun b hlost => hinv b ((lost_snoc fun _ _ heq => ?_).mp hlost)⟩
  injection heq with _ _ hc hresult
  exact ha b hc hresult

/-- A destroy returns `TT_ERROR_THREAD_DETACH` only if its `pthread_detach` fails. -/
theorem keeps_destroy {a : Addr} {Q : TtError → Unit → Prop}
    (hQ : ∀ e, e ≠ .threadDetach → Q e ()) : KeepsAll N t id c (ttThreadDestroy (some a)) Q := by
  refine keeps_step fun _ _ (state : TtThreadState) _ _ _ => ?_
  show KeepsAll N t id c (if state ≠ .terminated then .ret .threadActive else _) Q
  split
  · exact hQ .threadActive nofun
  refine keeps_step fun _ s _ _ hexec _ => ?_
  cases hexec
  rcases s.table.unregister_cases a with ⟨i, -, hunregister⟩ | ⟨-, hunregister⟩
  · rw [hunregister]
    refine keeps_step fun _ _ (isActive : Bool) _ _ _ => ?_
    cases isActive with
    | false => exact keeps_step fun _ _ _ _ _ _ => hQ .success nofun
    | true =>
        refine keeps_step fun _ _ handle _ _ _ => keeps_step fun _ _ (ok : Bool) _ _ hok => ?_
        cases ok with
        | false => exact absurd rfl (hok handle)
        | true =>
            refine keeps_step fun _ _ _ _ _ _ => keeps_step fun _ _ _ _ _ _ => ?_
            exact hQ .success nofun
  · rw [hunregister]
    exact hQ .notFound nofun

/-- As long as no `pthread_detach` fails, no record is lost. -/
theorem not_lost {ok : ThreadView N H τ → τ → ThreadCall H → Prop} {s₀ : ThreadState N H}
    {pl : Pool (threadSig H) τ (ThreadState N H) (ThreadCall H) TableVal}
    (h : (threadSys N H τ).Reach ok s₀ pl) (hdetach : ¬ DetachFailed pl.view.trace) (a : Addr) :
    ¬ Lost pl.view.trace a := by
  have hstart : ∀ a, ¬ Lost ([] : List (ThreadEvent H τ)) a := by
    rintro a ⟨id, t, hmem⟩
    exact List.not_mem_nil hmem
  refine ((keeping N H τ).sound ⟨fun _ => (), hstart, fun _ => trivial⟩ ?_ h hdetach).elim
    fun _ hinv => hinv.1 a
  intro v G t c _ hinv _ _ _ _
  have hlostiff : ∀ b, Lost (v.call t c).trace b ↔ Lost v.trace b :=
    fun b => lost_snoc fun _ _ => nofun
  refine ⟨(), fun b hlost => hinv b ((hlostiff b).mp hlost), ?_⟩
  by_cases hc : ∃ b, c = .destroy (some b)
  · obtain ⟨b, rfl⟩ := hc
    refine Outline.Wp.bind (keeps_destroy fun e he => keeps_final fun _ _ heq => ?_)
    exact he (TableVal.err.inj heq)
  · exact keeps_all fun _ => keeps_final fun b hb => absurd ⟨b, hb⟩ hc

end Keeping

/-- What the table says of the records. -/
structure Owns (v : ThreadView N H τ) : Prop where
  slots : ∀ i, (v.shared.table i).inUse = true →
    ∃ a, (v.shared.table i).thread = some a ∧ Stored v.shared a
  once : ∀ i j a, v.shared.table.holds a i = true → v.shared.table.holds a j = true → i = j
  free : ∀ i, (v.shared.table i).inUse = false → (v.shared.table i).thread = none
  handed : ∀ a, ledger v.trace a = .handed → InTable v.shared a
  destroying : ∀ a, ledger v.trace a = .destroying → InTable v.shared a ∨ TakenOut v a

omit [DecidableEq H] in
/-- With no record lost, the table has them all. -/
theorem Inv.owns {v : ThreadView N H τ} {G : τ → Ghost} (h : Inv v G)
    (hlost : ∀ a, ¬ Lost v.trace a) : Owns v := by
  refine ⟨h.sound.slots, h.sound.once, h.sound.free, ?_, ?_⟩
  · intro a hst
    exact (h.handed a hst).1.resolve_right (hlost a)
  · intro a hst
    obtain ⟨t, ht⟩ := h.destroying a hst
    have hknows := h.knows t
    rcases ht with ht | ht
    · rw [ht] at hknows
      exact Or.inl (hknows.2.1.resolve_right (hlost a))
    · rw [ht] at hknows
      exact Or.inr ⟨t, hknows.2.2.2⟩

/-- The thread started for the record at `a` has been joined. -/
def Joined (s : ThreadState N H) (a : Addr) : Prop :=
  ∃ o, s.startedFor a = some o ∧ o.status = .joined

omit [DecidableEq H] in
/-- Of two records with one handle, one has had its thread joined. -/
theorem Sound.joined {s : ThreadState N H} (hs : Sound s) {i j : Fin N} (hij : i ≠ j) {a b : Addr}
    (ha : s.table.holds a i = true) (hb : s.table.holds b j = true)
    (hhandle : s.handleOf a = s.handleOf b) : Joined s a ∨ Joined s b := by
  have hab : a ≠ b := by
    intro hab
    subst hab
    exact hij (hs.once i j a ha hb)
  obtain ⟨r, o, hr, ho, hro⟩ := InTable.stored hs ⟨i, ha⟩
  obtain ⟨r', o', hr', ho', hro'⟩ := InTable.stored hs ⟨j, hb⟩
  have heq : o.handle = o'.handle := by
    unfold ThreadState.handleOf at hhandle
    rw [hr, hr'] at hhandle
    exact Option.some.inj (hro.symm.trans (hhandle.trans hro'))
  have happart := apart_startedFor hs.apart hab ho ho'
  by_cases hjoined : o.status = .joined
  · exact Or.inl ⟨o, ho, hjoined⟩
  · by_cases hjoined' : o'.status = .joined
    · exact Or.inr ⟨o', ho', hjoined'⟩
    · exact absurd heq (happart hjoined hjoined')

/-- If this is a `pthread_detach`, it does not fail. -/
def detaches : ThreadEvent H τ → Bool
  | .prim _ _ (.inl (.pthreadDetach _)) ok => ok
  | _ => true

omit [DecidableEq H] in
theorem not_detachFailed {tr : List (ThreadEvent H τ)} (h : tr.all detaches = true) :
    ¬ DetachFailed tr := by
  rintro ⟨id, t, handle, hmem⟩
  have hok : false = true := List.all_eq_true.mp h _ hmem
  cases hok

/-- Thread 1 destroys a record whose join has stored its state but not yet `is_active`. -/
def detachSchedule : List (Label Nat (ThreadChoice Nat) (ThreadCall Nat)) :=
  createLabels 0 10 20 ++ .call 0 (.join (some 10)) :: List.replicate 3 (.prim 0 .ok) ++
    .call 1 (.destroy (some 10)) :: List.replicate 5 (.prim 1 .ok) ++ [.ret 1]

/-- The handle of a thread that has been joined is given to the next one. -/
def reuseSchedule : List (Label Nat (ThreadChoice Nat) (ThreadCall Nat)) :=
  createLabels 0 10 20 ++ .call 0 (.join (some 10)) :: List.replicate 4 (.prim 0 .ok) ++ [.ret 0] ++
    createLabels 0 11 20

end Thread

open Thread in
/--
**Who owns a thread record.**  After one `tt_thread_init`, in every interleaving of
clients that keep their promise, and as long as no `pthread_detach` fails: every slot
in use holds an allocated record whose handle `pthread_create` stored, no record is
in two slots, free slots hold `NULL`, and a record that was handed out and that no
destroy has freed is in the table, unless its destroy has just taken it out.
-/
theorem ttThreadTable_owns {N : Nat} {H τ : Type} [DecidableEq H] [DecidableEq τ] {t₀ : τ}
    {s₀ : ThreadState N H} {es : List (threadSig H).Done}
    (hinit : (threadMachine N H τ).Run t₀ ttThreadInit .zero es .success s₀)
    {pl : Pool (threadSig H) τ (ThreadState N H) (ThreadCall H) TableVal}
    (h : (threadSys N H τ).Reach Owned s₀ pl) (hdetach : ¬ DetachFailed pl.view.trace) :
    Owns pl.view := by
  obtain ⟨G, hinv⟩ := inv_of_reach hinit h
  exact hinv.owns (not_lost h hdetach)

open Thread in
/-- One thread, created and joined. -/
theorem ttThreadTable_owns_joined :
    ∃ pl : Pool (threadSig Nat) Nat (ThreadState 2 Nat) (ThreadCall Nat) TableVal,
      ledger pl.view.trace 10 = .handed ∧ Owns pl.view := by
  have hinit : (threadMachine 2 Nat Nat).Run 0 ttThreadInit .zero [⟨.inr .init, .success⟩] .success
      .zero := Machine.run_of_eval [.ok] rfl
  have hrun : ((threadSys 2 Nat Nat).run Owned (createLabels 0 10 20 ++
      .call 0 (.join (some 10)) :: List.replicate 4 (.prim 0 .ok)) (Sys.start .zero)).isSome =
        true := rfl
  exact ⟨_, rfl, ttThreadTable_owns hinit (Sys.Reach.run _ .start (Option.some_get hrun).symm)
    (not_detachFailed rfl)⟩

open Thread in
/-- **A destroy whose `pthread_detach` fails has lost its record.** -/
theorem ttThreadTable_detach :
    ∃ pl : Pool (threadSig Nat) Nat (ThreadState 1 Nat) (ThreadCall Nat) TableVal,
      (threadMachine 1 Nat Nat).Run 0 ttThreadInit .zero [⟨.inr .init, .success⟩] .success .zero ∧
      (threadSys 1 Nat Nat).Reach Owned .zero pl ∧ ledger pl.view.trace 10 = .handed ∧
      ¬ InTable pl.view.shared 10 ∧ (∀ t id, pl.view.calls t ≠ some (id, .destroy (some 10))) ∧
      ¬ Owns pl.view := by
  have hrun : ((threadSys 1 Nat Nat).run Owned detachSchedule (Sys.start .zero)).isSome = true := rfl
  have hin : ∀ i, Table.holds (((threadSys 1 Nat Nat).run Owned detachSchedule
      (Sys.start .zero)).get hrun).view.shared.table 10 i = false
    | 0 => rfl
  refine ⟨_, Machine.run_of_eval [.ok] rfl, Sys.Reach.run _ .start (Option.some_get hrun).symm, rfl,
    ?_, ?_, ?_⟩
  · rintro ⟨i, hi⟩
    exact Bool.false_ne_true ((hin i).symm.trans hi)
  · intro t id
    match t with
    | 0 => exact nofun
    | 1 => exact nofun
    | t + 2 => exact nofun
  · intro h
    obtain ⟨i, hi⟩ := h.handed 10 rfl
    exact Bool.false_ne_true ((hin i).symm.trans hi)

open Thread in
/--
**A handle identifies a thread that has not been joined.**  After one
`tt_thread_init`, in every interleaving of clients that keep their promise, of two
slots that hold records with the same handle one holds the record of a thread that
has been joined.
-/
theorem ttThreadTable_handles {N : Nat} {H τ : Type} [DecidableEq H] [DecidableEq τ] {t₀ : τ}
    {s₀ : ThreadState N H} {es : List (threadSig H).Done}
    (hinit : (threadMachine N H τ).Run t₀ ttThreadInit .zero es .success s₀)
    {pl : Pool (threadSig H) τ (ThreadState N H) (ThreadCall H) TableVal}
    (h : (threadSys N H τ).Reach Owned s₀ pl) {i j : Fin N} (hij : i ≠ j) {a b : Addr}
    (ha : pl.view.shared.table.holds a i = true) (hb : pl.view.shared.table.holds b j = true)
    (hhandle : pl.view.shared.handleOf a = pl.view.shared.handleOf b) :
    Joined pl.view.shared a ∨ Joined pl.view.shared b := by
  obtain ⟨G, hinv⟩ := inv_of_reach hinit h
  exact hinv.sound.joined hij ha hb hhandle

open Thread in
/-- **A thread that has been joined may share its handle with the next one.** -/
theorem ttThreadTable_handles_reused :
    ∃ pl : Pool (threadSig Nat) Nat (ThreadState 2 Nat) (ThreadCall Nat) TableVal,
      (threadMachine 2 Nat Nat).Run 0 ttThreadInit .zero [⟨.inr .init, .success⟩] .success .zero ∧
      (threadSys 2 Nat Nat).Reach Owned .zero pl ∧
      pl.view.shared.table.holds 10 0 = true ∧ pl.view.shared.table.holds 11 1 = true ∧
      pl.view.shared.handleOf 10 = some 20 ∧ pl.view.shared.handleOf 11 = some 20 := by
  have hrun : ((threadSys 2 Nat Nat).run Owned reuseSchedule (Sys.start .zero)).isSome = true := rfl
  exact ⟨_, Machine.run_of_eval [.ok] rfl, Sys.Reach.run _ .start (Option.some_get hrun).symm, rfl,
    rfl, rfl, rfl⟩

open Thread in
/-- There, the first thread is the one that has been joined. -/
theorem ttThreadTable_handles_joined :
    ∃ pl : Pool (threadSig Nat) Nat (ThreadState 2 Nat) (ThreadCall Nat) TableVal,
      pl.view.shared.handleOf 10 = pl.view.shared.handleOf 11 ∧
      (Joined pl.view.shared 10 ∨ Joined pl.view.shared 11) := by
  have hinit : (threadMachine 2 Nat Nat).Run 0 ttThreadInit .zero [⟨.inr .init, .success⟩] .success
      .zero := Machine.run_of_eval [.ok] rfl
  have hrun : ((threadSys 2 Nat Nat).run Owned reuseSchedule (Sys.start .zero)).isSome = true := rfl
  exact ⟨_, rfl, ttThreadTable_handles hinit (Sys.Reach.run _ .start (Option.some_get hrun).symm)
    (i := 0) (j := 1) Fin.zero_ne_one rfl rfl rfl⟩

end TinyTools
