/-
Calls in progress come to their end.

Two facts together say so.  A program is finite, so what the calls in progress can still
do among them is bounded, for as long as no call is started; and as long as one is in
progress some thread can get on.  Whoever schedules the threads, they cannot go on for
ever and cannot be stuck before all calls have returned.

A primitive that leaves its thread where it is, as in a spin loop, does not count.  So
the bound is on the steps by which a thread gets on, and what is shown for the lock is
that there is always such a step: a thread that waits, waits for one that can move.
-/
import TinyTools.Lib.Linearize
import TinyTools.Lib.Nested
import Mathlib.Algebra.BigOperators.Group.Finset.Piecewise

namespace Interleave

variable {S T : Sig} {τ χ σ κ α β : Type}

/-! ### How long a program is -/

/-- On no path does the program perform more than `n` primitives. -/
def Prog.Short : Prog S α → Nat → Prop
  | .ret _, _ => True
  | .step _ _, 0 => False
  | .step _ k, n + 1 => ∀ r, (k r).Short n

namespace Prog

theorem Short.mono {m : Prog S α} : ∀ {i j : Nat}, i ≤ j → m.Short i → m.Short j := by
  induction m with
  | ret a => exact fun _ _ => trivial
  | step p k ih =>
      intro i j hij h
      cases i with
      | zero => exact h.elim
      | succ i =>
          cases j with
          | zero => omega
          | succ j => exact fun r => ih r (Nat.le_of_succ_le_succ hij) (h r)

theorem Short.bind {m : Prog S α} {f : α → Prog S β} {j : Nat} (hf : ∀ a, (f a).Short j) :
    ∀ {i : Nat}, m.Short i → (m >>= f).Short (i + j) := by
  induction m with
  | ret a => exact fun _ => (hf a).mono (Nat.le_add_left ..)
  | step p k ih =>
      intro i h
      cases i with
      | zero => exact h.elim
      | succ i =>
          rw [Nat.succ_add]
          exact fun r => ih r (h r)

/-- A program whose value is wrapped up at the end. -/
theorem Short.map {m : Prog S α} {n : Nat} (f : α → β) (h : m.Short n) :
    (m >>= fun a => .ret (f a)).Short n :=
  .bind (f := fun a => .ret (f a)) (j := 0) (fun _ => trivial) h

theorem short_ite {n : Nat} {b : Prop} [Decidable b] {m m' : Prog S α} (hm : m.Short n)
    (hm' : m'.Short n) : (if b then m else m').Short n := by
  split
  · exact hm
  · exact hm'

theorem Short.inr {m : Prog T α} : ∀ {i : Nat}, m.Short i → (m.inr : Prog (S.sum T) α).Short i := by
  induction m with
  | ret a => exact fun _ => trivial
  | step p k ih =>
      intro i h
      cases i with
      | zero => exact h.elim
      | succ i => exact fun r => ih r (h r)

end Prog

/-! ### Getting on -/

/-- A step by which a thread gets on. -/
def Event.advances (M : Machine S τ χ σ) : Event S τ κ α → Bool
  | .call _ _ _ => false
  | .prim _ _ p r => !M.again p r
  | .ret _ _ _ _ => true

/-- How often threads have got on. -/
def advances (M : Machine S τ χ σ) (tr : List (Event S τ κ α)) : Nat :=
  tr.countP (Event.advances M)

@[simp] theorem advances_snoc (M : Machine S τ χ σ) (tr : List (Event S τ κ α))
    (e : Event S τ κ α) : advances M (tr ++ [e]) = advances M tr + (e.advances M).toNat := by
  unfold advances
  rw [List.countP_append, List.countP_singleton]
  cases e.advances M <;> rfl

namespace Sys

variable [DecidableEq τ] {S' : Sys S τ χ σ κ α}

/-- What is reached without a further call. -/
inductive Calm (S' : Sys S τ χ σ κ α) (pl : Pool S τ σ κ α) : Pool S τ σ κ α → Prop
  | refl : Calm S' pl pl
  | step {pl₁ pl₂ : Pool S τ σ κ α} (h : Calm S' pl pl₁) {l : Label τ χ κ}
      (hl : ∀ t c, l ≠ .call t c) (hstep : S'.step l pl₁ = some pl₂) : Calm S' pl pl₂

/-- Thread `t` can get on. -/
def Moves (S' : Sys S τ χ σ κ α) (pl : Pool S τ σ κ α) (t : τ) : Prop :=
  ∃ id c m, pl.view.calls t = some (id, c) ∧ pl.prog t = some m ∧
    ∀ p k, m = .step p k → ∃ x r s, S'.exec x t p pl.view.shared = some (r, s) ∧
      S'.again p r = false

/-- A thread that can get on has a step by which it does. -/
theorem Moves.step {pl : Pool S τ σ κ α} {t : τ} (h : S'.Moves pl t) :
    ∃ l pl', (∀ u c, l ≠ .call u c) ∧ S'.step l pl = some pl' ∧
      advances S'.toMachine pl'.view.trace = advances S'.toMachine pl.view.trace + 1 := by
  obtain ⟨id, c, m, hc, hm, hnext⟩ := h
  cases m with
  | ret a =>
      refine ⟨.ret t, _, nofun, step_ret_eq hc hm, ?_⟩
      simp [Event.advances]
  | step p k =>
      obtain ⟨x, r, s, hexec, hr⟩ := hnext p k rfl
      refine ⟨.prim t x, _, nofun, step_prim_eq hc hm hexec hr, ?_⟩
      simp [Event.advances, hr]

/-- What is calmly reached is reached. -/
theorem Calm.reach {ok : View S τ σ κ α → τ → κ → Prop} {s₀ : σ} {pl pl' : Pool S τ σ κ α}
    (h : S'.Calm pl pl') (hreach : S'.Reach ok s₀ pl) : S'.Reach ok s₀ pl' := by
  induction h with
  | refl => exact hreach
  | @step pl₁ pl₂ _ l hl hstep ih =>
      refine ih.step l ?_ hstep
      cases l with
      | call t c => exact absurd rfl (hl t c)
      | prim t x => trivial
      | ret t => trivial

/-! ### The bound -/

/-- Every call in progress has a program, of which holds what holds of the functions and of whatever
is left of a program that has it. -/
theorem Reach.rest {ok : View S τ σ κ α → τ → κ → Prop} {Q : Prog S α → Prop}
    (hbody : ∀ v t c, ok v t c → Q (S'.body c)) (hstep : ∀ p k, Q (.step p k) → ∀ r, Q (k r))
    {s₀ : σ} {pl : Pool S τ σ κ α} (h : S'.Reach ok s₀ pl) :
    ∀ t, pl.view.calls t ≠ none → ∃ m, pl.prog t = some m ∧ Q m := by
  induction h with
  | start => exact fun t ht => absurd rfl ht
  | @step pl pl' _ l hok hl ih =>
      cases l with
      | call t c =>
          obtain ⟨-, rfl⟩ := step_call hl
          intro u hu
          by_cases hut : u = t
          · subst hut
            exact ⟨_, Function.update_self .., hbody _ _ _ hok⟩
          · obtain ⟨m, hm, hQ⟩ := ih u (by simpa [hut] using hu)
            exact ⟨m, by simpa [hut] using hm, hQ⟩
      | prim t x =>
          obtain ⟨id, c, p, k, r, s, hc, hp, -, rfl⟩ := step_prim hl
          intro u hu
          obtain ⟨m, hm, hQ⟩ := ih u hu
          by_cases hagain : S'.again p r = true
          · exact ⟨m, by simpa [hagain] using hm, hQ⟩
          · by_cases hut : u = t
            · subst hut
              rw [hp] at hm
              cases hm
              exact ⟨k r, by simp [hagain], hstep p k hQ r⟩
            · exact ⟨m, by simpa [hagain, hut] using hm, hQ⟩
      | ret t =>
          obtain ⟨id, c, a, -, -, rfl⟩ := step_ret hl
          intro u hu
          by_cases hut : u = t
          · subst hut
            simp at hu
          · obtain ⟨m, hm, hQ⟩ := ih u (by simpa [hut] using hu)
            exact ⟨m, by simpa [hut] using hm, hQ⟩

/-- What is left of a short program is short. -/
theorem short_rest {n : Nat} (p : S.Op) (k : S.Res p → Prog S α) (h : (Prog.step p k).Short n)
    (r : S.Res p) : (k r).Short n := by
  cases n with
  | zero => exact h.elim
  | succ n => exact (h r).mono (Nat.le_succ n)

/-- The calls in progress are finitely many. -/
theorem Reach.finite {ok : View S τ σ κ α → τ → κ → Prop} {s₀ : σ} {pl : Pool S τ σ κ α}
    (h : S'.Reach ok s₀ pl) : ∃ ts : Finset τ, ∀ t, t ∈ ts ↔ pl.view.calls t ≠ none := by
  induction h with
  | start => exact ⟨∅, fun t => iff_of_false (Finset.notMem_empty t) fun ht => ht rfl⟩
  | @step pl pl' _ l _ hl ih =>
      obtain ⟨ts, hts⟩ := ih
      cases l with
      | call t c =>
          obtain ⟨-, rfl⟩ := step_call hl
          refine ⟨insert t ts, fun u => ?_⟩
          by_cases hut : u = t
          · simp [hut]
          · simpa [hut] using hts u
      | prim t x =>
          obtain ⟨id, c, p, k, r, s, -, -, -, rfl⟩ := step_prim hl
          exact ⟨ts, hts⟩
      | ret t =>
          obtain ⟨id, c, a, -, -, rfl⟩ := step_ret hl
          refine ⟨ts.erase t, fun u => ?_⟩
          by_cases hut : u = t
          · simp [hut]
          · simpa [hut] using hts u

/-- What the calls in progress can still do: `w` is more than what each of them can. -/
structure Weighs (pl : Pool S τ σ κ α) (ts : Finset τ) (w : τ → Nat) : Prop where
  mem : ∀ t, pl.view.calls t ≠ none → t ∈ ts
  short : ∀ t, pl.view.calls t ≠ none → ∃ m n, pl.prog t = some m ∧ m.Short n ∧ w t = n + 1

/-- One weight less. -/
theorem sum_update_lt {ts : Finset τ} {w : τ → Nat} {t : τ} (ht : t ∈ ts) {n : Nat}
    (hn : n < w t) : (∑ u ∈ ts, Function.update w t n u) + 1 ≤ ∑ u ∈ ts, w u := by
  rw [Finset.sum_update_of_mem ht, ← Finset.add_sum_erase ts w ht, ← Finset.erase_eq]
  omega

/-- A step that is no call. -/
theorem Weighs.step {pl pl' : Pool S τ σ κ α} {ts : Finset τ} {w : τ → Nat}
    (h : Weighs pl ts w) {l : Label τ χ κ} (hl : ∀ t c, l ≠ .call t c)
    (hstep : S'.step l pl = some pl') :
    ∃ w', Weighs pl' ts w' ∧ advances S'.toMachine pl'.view.trace + ∑ t ∈ ts, w' t ≤
      advances S'.toMachine pl.view.trace + ∑ t ∈ ts, w t := by
  cases l with
  | call t c => exact absurd rfl (hl t c)
  | prim t x =>
      obtain ⟨id, c, p, k, r, s, hc, hp, -, rfl⟩ := step_prim hstep
      have ht : pl.view.calls t ≠ none := by
        rw [hc]
        exact Option.some_ne_none _
      by_cases hagain : S'.again p r = true
      · refine ⟨w, ⟨h.mem, ?_⟩, ?_⟩
        · simpa [hagain] using h.short
        · simp [Event.advances, hagain]
      · obtain ⟨m, n, hm, hshort, hw⟩ := h.short t ht
        rw [hp] at hm
        cases hm
        cases n with
        | zero => exact hshort.elim
        | succ n =>
            refine ⟨Function.update w t (n + 1), ⟨h.mem, ?_⟩, ?_⟩
            · intro u hu
              by_cases hut : u = t
              · subst hut
                exact ⟨k r, n, by simp [hagain], hshort r, Function.update_self ..⟩
              · obtain ⟨m, i, hm, hi, hwu⟩ := h.short u hu
                exact ⟨m, i, by simpa [hagain, hut] using hm, hi, by simpa [hut] using hwu⟩
            · have hsum := sum_update_lt (h.mem t ht) (n := n + 1) (by omega : n + 1 < w t)
              simp only [View.prim_trace, advances_snoc, Event.advances,
                Bool.not_eq_true _ |>.mp hagain, Bool.not_false, Bool.toNat_true]
              omega
  | ret t =>
      obtain ⟨id, c, a, hc, -, rfl⟩ := step_ret hstep
      have ht : pl.view.calls t ≠ none := by
        rw [hc]
        exact Option.some_ne_none _
      obtain ⟨-, n, -, -, hw⟩ := h.short t ht
      refine ⟨Function.update w t 0, ⟨?_, ?_⟩, ?_⟩
      · intro u hu
        refine h.mem u fun hnone => hu ?_
        by_cases hut : u = t
        · simp [hut]
        · simpa [hut] using hnone
      · intro u hu
        by_cases hut : u = t
        · subst hut
          simp at hu
        · obtain ⟨m, i, hm, hi, hwu⟩ := h.short u (by simpa [hut] using hu)
          exact ⟨m, i, by simpa [hut] using hm, hi, by simpa [hut] using hwu⟩
      · have hsum := sum_update_lt (h.mem t ht) (n := 0) (by omega : 0 < w t)
        simp only [View.ret_trace, advances_snoc, Event.advances, Bool.toNat_true]
        omega

/-- As long as no call is started, `ts` being the threads with one in progress, their number is a
bound on how often threads get on. -/
theorem Calm.bounded {ok : View S τ σ κ α → τ → κ → Prop} {n : Nat}
    (hbody : ∀ v t c, ok v t c → (S'.body c).Short n) {s₀ : σ} {pl pl' : Pool S τ σ κ α}
    (hreach : S'.Reach ok s₀ pl) {ts : Finset τ} (hts : ∀ t, pl.view.calls t ≠ none → t ∈ ts)
    (h : S'.Calm pl pl') :
    advances S'.toMachine pl'.view.trace ≤
      advances S'.toMachine pl.view.trace + (n + 1) * ts.card := by
  have hweighs : ∃ w, Weighs pl' ts w ∧ advances S'.toMachine pl'.view.trace + ∑ t ∈ ts, w t ≤
      advances S'.toMachine pl.view.trace + (n + 1) * ts.card := by
    induction h with
    | refl =>
        refine ⟨fun _ => n + 1, ⟨hts, ?_⟩, ?_⟩
        · intro t ht
          obtain ⟨m, hm, hshort⟩ := hreach.rest (Q := (·.Short n)) hbody short_rest t ht
          exact ⟨m, n, hm, hshort, rfl⟩
        · rw [Finset.sum_const_nat fun _ _ => rfl, Nat.mul_comm]
    | step _ hl hstep ih =>
        obtain ⟨w, hw, hle⟩ := ih
        obtain ⟨w', hw', hle'⟩ := hw.step hl hstep
        exact ⟨w', hw', hle'.trans hle⟩
  obtain ⟨w, -, hle⟩ := hweighs
  omega

/-- Without further calls the threads get on at most `n` times for each call in progress, and until
all of them have returned there is one that can. -/
structure Completes (S' : Sys S τ χ σ κ α) (n : Nat) (pl : Pool S τ σ κ α) : Prop where
  bounded : ∃ ts : Finset τ, (∀ t, t ∈ ts ↔ pl.view.calls t ≠ none) ∧
    ∀ pl', S'.Calm pl pl' → advances S'.toMachine pl'.view.trace ≤
      advances S'.toMachine pl.view.trace + n * ts.card
  moves : ∀ pl' t, S'.Calm pl pl' → pl'.view.calls t ≠ none → ∃ u, S'.Moves pl' u

theorem completes {ok : View S τ σ κ α → τ → κ → Prop} {n : Nat} {s₀ : σ}
    (hbody : ∀ v t c, ok v t c → (S'.body c).Short n)
    (hmoves : ∀ pl t, S'.Reach ok s₀ pl → pl.view.calls t ≠ none → ∃ u, S'.Moves pl u)
    {pl : Pool S τ σ κ α} (h : S'.Reach ok s₀ pl) : S'.Completes (n + 1) pl := by
  refine ⟨?_, fun pl' t hcalm => hmoves pl' t (hcalm.reach h)⟩
  obtain ⟨ts, hts⟩ := h.finite
  exact ⟨ts, hts, fun pl' => Calm.bounded hbody h fun t => (hts t).mpr⟩

/-- **All calls in progress can return.** -/
theorem Completes.ends {n : Nat} {pl : Pool S τ σ κ α} (h : S'.Completes n pl) :
    ∃ pl', S'.Calm pl pl' ∧ ∀ t, pl'.view.calls t = none := by
  obtain ⟨ts, -, hle⟩ := h.bounded
  -- on the number of steps that are left
  suffices hleft : ∀ i pl₁, S'.Calm pl pl₁ → advances S'.toMachine pl.view.trace + n * ts.card ≤
      advances S'.toMachine pl₁.view.trace + i →
      ∃ pl', S'.Calm pl pl' ∧ ∀ t, pl'.view.calls t = none from
    hleft (n * ts.card) pl .refl (Nat.le_refl _)
  intro i
  induction i with
  | zero =>
      intro pl₁ hcalm hi
      refine ⟨pl₁, hcalm, fun t => ?_⟩
      by_contra ht
      obtain ⟨u, hu⟩ := h.moves pl₁ t hcalm ht
      obtain ⟨l, pl₂, hl, hstep, hadvances⟩ := hu.step
      have hle₂ := hle pl₂ (hcalm.step hl hstep)
      omega
  | succ i ih =>
      intro pl₁ hcalm hi
      by_cases hnone : ∀ t, pl₁.view.calls t = none
      · exact ⟨pl₁, hcalm, hnone⟩
      · obtain ⟨t, ht⟩ := not_forall.mp hnone
        obtain ⟨u, hu⟩ := h.moves pl₁ t hcalm ht
        obtain ⟨l, pl₂, hl, hstep, hadvances⟩ := hu.step
        exact ih pl₂ (hcalm.step hl hstep) (by omega)

end Sys

/-! ### Waiting for a lock -/

namespace Locking

variable {S' : Sys S τ χ σ κ α} {K : Locking S'.toMachine} {s₀ : σ}
  {pl : Pool S τ σ κ α}

/-- With everybody able to take the step the lock admits, somebody is not kept waiting. -/
theorem Inv.moves {L : List (LogEntry S τ κ α)} {s : σ} (hinv : Inv K s₀ pl L s)
    (hrunning : ∀ u, pl.view.calls u ≠ none → ∃ m, pl.prog u = some m)
    (hcan : ∀ u id c p k, pl.view.calls u = some (id, c) → pl.prog u = some (.step p k) →
      (K.kind p = .acquire ∧ K.holder pl.view.shared = none) ∨
        ((K.kind p = .inside ∨ K.kind p = .release) ∧ K.holder pl.view.shared = some u) →
      ∃ x r s', S'.exec x u p pl.view.shared = some (r, s'))
    {t : τ} (ht : pl.view.calls t ≠ none) : ∃ u, S'.Moves pl u := by
  have hnever : ∀ {p : S.Op} {k : LockKind}, K.kind p = k → k ≠ .never → K.kind p ≠ .never :=
    fun hp hk => hp ▸ hk
  rcases hlock : K.holder pl.view.shared with _ | u
  · -- nobody has the lock, so `t` itself does not wait
    obtain ⟨⟨id, c⟩, hc⟩ := Option.ne_none_iff_exists'.mp ht
    obtain ⟨m, hm⟩ := hrunning t ht
    refine ⟨t, id, c, m, hc, hm, ?_⟩
    rintro p k rfl
    have hkind : K.kind p = .free ∨ K.kind p = .acquire := by
      cases hinv.thread t id c _ hc hm with
      | before hshape =>
          obtain ⟨ph, hnext, -⟩ := hshape
          exact (Phase.next_before hnext).imp And.left And.left
      | inside _ hin =>
          rw [hlock] at hin
          cases hin
      | after hshape =>
          obtain ⟨ph, hnext, -⟩ := hshape
          exact Or.inl (Phase.next_after hnext).1
    rcases hkind with hp | hp
    · obtain ⟨r, -, -, hexec⟩ := K.free (t := t) hp
      obtain ⟨x, hx⟩ := (hexec _ hinv.stable).1
      exact ⟨x, r, _, hx, (K.sound (hnever hp (by decide)) hinv.stable hx).2.2⟩
    · obtain ⟨x, r, s', hx⟩ := hcan t id c p k hc hm (Or.inl ⟨hp, hlock⟩)
      exact ⟨x, r, s', hx, (K.sound (hnever hp (by decide)) hinv.stable hx).2.2⟩
  · -- the holder is in its section and does not wait
    obtain ⟨id, c, hc, -⟩ := hinv.locked u hlock
    have hcalls : pl.view.calls u ≠ none := by
      rw [hc]
      exact Option.some_ne_none _
    obtain ⟨m, hm⟩ := hrunning u hcalls
    refine ⟨u, id, c, m, hc, hm, ?_⟩
    rintro p k rfl
    have hkind : K.kind p = .inside ∨ K.kind p = .release := by
      cases hinv.thread u id c _ hc hm with
      | before _ hout => exact absurd hlock hout
      | inside hshape =>
          obtain ⟨ph, hnext, -⟩ := hshape
          exact (Phase.next_inside hnext).imp And.left And.left
      | after _ hout => exact absurd hlock hout
    obtain ⟨x, r, s', hx⟩ := hcan u id c p k hc hm (Or.inr ⟨hkind, hlock⟩)
    have hp : K.kind p ≠ .never := by
      rcases hkind with hp | hp
      · exact hnever hp (by decide)
      · exact hnever hp (by decide)
    exact ⟨x, r, s', hx, (K.sound hp hinv.stable hx).2.2⟩

variable {P : κ → Prop} {Left : σ → Prop}

/-- Each function, alone in a state of which `Left` holds, gets stuck nowhere and leaves another. -/
def Steady (S' : Sys S τ χ σ κ α) (P : κ → Prop) (Left : σ → Prop) : Prop :=
  ∀ t c s, P c → Left s →
    S'.Meets t (fun _ _ _ => True) (fun _ _ s' => Left s') [] (S'.body c) s

/-- What one call after the other leaves. -/
theorem Steady.left (hsteady : Steady S' P Left) (hagain : ∀ p r, S'.again p r = false)
    {L : List (LogEntry S τ κ α)} {s : σ} (h : Sequential S' s₀ L s) (hL : ∀ e ∈ L, P e.call)
    (hleft : Left s₀) : Left s := by
  induction h with
  | nil => exact hleft
  | @snoc L s s' e _ hrun ih =>
      have hs := ih fun e' he' => hL e' (List.mem_append_left _ he')
      have hmeets := hsteady e.thread e.call s (hL e (by simp)) hs
      exact (hmeets.run hagain).2 _ _ _ hrun

/-- Nobody inside a section is stuck, nor on the way to one. -/
theorem Inv.can {L : List (LogEntry S τ κ α)} {s : σ} (hinv : Inv K s₀ pl L s)
    (hsteady : Steady S' P Left) (hleft : Left s) {u : τ} {id : Nat} {c : κ} {p : S.Op}
    {k : S.Res p → Prog S α} (hc : pl.view.calls u = some (id, c)) (hP : P c)
    (hp : pl.prog u = some (.step p k)) (hkind : K.kind p ≠ .free)
    (hlock : K.holder pl.view.shared = none ∨ K.holder pl.view.shared = some u) :
    ∃ x r s', S'.exec x u p pl.view.shared = some (r, s') := by
  have hmeets := hsteady u c s hP hleft
  cases hinv.thread u id c _ hc hp with
  | before _ hout _ _ hsteps =>
      rw [hinv.unlocked (hlock.resolve_right hout)]
      exact (hmeets.steps (hsteps s hinv.rest.1)).2.1
  | inside _ _ _ hsteps => exact (hmeets.steps hsteps).2.1
  | after hshape =>
      obtain ⟨ph, hnext, -⟩ := hshape
      exact absurd (Phase.next_after hnext).1 hkind

/-- **Functions with one critical section do not deadlock**, if alone they get stuck nowhere. -/
theorem moves [DecidableEq τ] (hsteady : Steady S' P Left) (hagain : ∀ p r, S'.again p r = false)
    {ok : View S τ σ κ α → τ → κ → Prop} (hok : ∀ v t c, ok v t c → P c) (hleft : Left s₀)
    (hstable : K.stable s₀) (hfree : K.holder s₀ = none)
    (hshape : ∀ v t c, ok v t c → K.Shape .before (S'.body c)) (h : S'.Reach ok s₀ pl) {t : τ}
    (ht : pl.view.calls t ≠ none) : ∃ u, S'.Moves pl u := by
  obtain ⟨L, s, hinv⟩ := inv_of_reach hstable hfree hshape h
  have hcalled : ∀ id t c, .call id t c ∈ pl.view.trace → P c := h.call_mem hok
  have hs : Left s := hsteady.left hagain hinv.lin.legal
    (fun e he => hcalled _ _ _ (hinv.lin.called e he)) hleft
  refine hinv.moves ?_ ?_ ht
  · exact fun u hu =>
      (h.rest (Q := fun _ => True) (fun _ _ _ _ => trivial) (fun _ _ _ _ => trivial) u hu).imp
        fun _ hm => hm.1
  · intro u id c p k hc hp hkind
    have hPc := hcalled id u c (h.books.called u id c hc)
    rcases hkind with ⟨hkind, hlock⟩ | ⟨hkind, hlock⟩
    · exact hinv.can hsteady hs hc hPc hp (by rw [hkind]; decide) (Or.inl hlock)
    · refine hinv.can hsteady hs hc hPc hp ?_ (Or.inr hlock)
      rcases hkind with hkind | hkind
      · rw [hkind]
        decide
      · rw [hkind]
        decide

end Locking

/-! ### Any number of sections

Functions that take the lock again and again do not deadlock either, if they give it back
in between and wait for nothing else. -/

/-- A lock among the primitives of a machine. -/
structure Turns (M : Machine S τ χ σ) where
  holder : σ → Option τ
  /-- What no primitive changes. -/
  stable : σ → Prop
  /-- Never waited for, and without effect on the lock. -/
  own : S.Op → Prop
  take : S.Op → Prop
  give : S.Op → Prop
  /-- The answers a primitive can get in a stable state. -/
  ans : (p : S.Op) → S.Res p → Prop
  sound : ∀ {x t p s r s'}, own p ∨ take p ∨ give p → stable s → M.exec x t p s = some (r, s') →
    ans p r ∧ stable s' ∧ M.again p r = false
  holder_own : ∀ {x t p s r s'}, own p → stable s → M.exec x t p s = some (r, s') →
    holder s' = holder s
  /-- The lock is waited for while somebody has it. -/
  holder_take : ∀ {x t p s r s'}, take p → M.exec x t p s = some (r, s') →
    holder s = none ∧ holder s' = some t
  holder_give : ∀ {x t p s r s'}, give p → M.exec x t p s = some (r, s') → holder s = some t →
    holder s' = none
  can : ∀ {t p s}, stable s → own p ∨ (take p ∧ holder s = none) ∨ (give p ∧ holder s = some t) →
    ∃ x r s', M.exec x t p s = some (r, s')

namespace Turns

variable {M : Machine S τ χ σ} {K : Turns M}

/-- The lock is taken and given back by turns, and not kept; `b` tells whether it is had. -/
def Rounds (K : Turns M) : Bool → Prog S α → Prop
  | b, .ret _ => b = false
  | b, .step p k => (K.own p ∧ ∀ r, K.ans p r → K.Rounds b (k r)) ∨
      (b = false ∧ K.take p ∧ ∀ r, K.ans p r → K.Rounds true (k r)) ∨
      (b = true ∧ K.give p ∧ ∀ r, K.ans p r → K.Rounds false (k r))

theorem Rounds.bind {m : Prog S α} {f : α → Prog S β} (hf : ∀ a, K.Rounds false (f a)) :
    ∀ {b : Bool}, K.Rounds b m → K.Rounds b (m.bind f) := by
  induction m with
  | ret a =>
      rintro b rfl
      exact hf a
  | step p k ih =>
      rintro b (⟨hp, hk⟩ | ⟨hb, hp, hk⟩ | ⟨hb, hp, hk⟩)
      · exact Or.inl ⟨hp, fun r hr => ih r (hk r hr)⟩
      · exact Or.inr (Or.inl ⟨hb, hp, fun r hr => ih r (hk r hr)⟩)
      · exact Or.inr (Or.inr ⟨hb, hp, fun r hr => ih r (hk r hr)⟩)

/-- One section, then a program that takes turns. -/
theorem rounds_section {m : Prog S α} {p : S.Op} {f : α → S.Res p → Prog S β} (hm : m.Every K.own)
    (hp : K.give p) (hf : ∀ a r, K.ans p r → K.Rounds false (f a r)) :
    K.Rounds true (m.bind fun a => .step p (f a)) := by
  induction m with
  | ret a => exact Or.inr (Or.inr ⟨rfl, hp, hf a⟩)
  | step q k ih => exact Or.inl ⟨hm.1, fun r _ => ih r (hm.2 r)⟩

/-- Everybody in a call is at a point from where it takes turns, and the one who has the lock has it. -/
structure Inv (K : Turns M) (pl : Pool S τ σ κ α) : Prop where
  thread : ∀ t, pl.view.calls t ≠ none → ∃ m b, pl.prog t = some m ∧ K.Rounds b m ∧
    (b = true ↔ K.holder pl.view.shared = some t)
  holder : ∀ t, K.holder pl.view.shared = some t → pl.view.calls t ≠ none
  stable : K.stable pl.view.shared

variable [DecidableEq τ] {S' : Sys S τ χ σ κ α} {K : Turns S'.toMachine}
  {ok : View S τ σ κ α → τ → κ → Prop} {s₀ : σ} {pl pl' : Pool S τ σ κ α}

/-- A step on the lock, or beside it. -/
theorem Inv.prim (h : Inv K pl) {t : τ} {x : χ} (hstep : S'.step (.prim t x) pl = some pl') :
    Inv K pl' := by
  obtain ⟨id, c, p, k, r, s, hc, hp, hexec, rfl⟩ := Sys.step_prim hstep
  have hcalls : pl.view.calls t ≠ none := by
    rw [hc]
    exact Option.some_ne_none _
  obtain ⟨m, b, hm, hrounds, hb⟩ := h.thread t hcalls
  rw [hp] at hm
  cases hm
  -- where the step leaves its thread and the lock
  have hgo : ∀ b', K.own p ∨ K.take p ∨ K.give p → K.Rounds b' (k r) →
      (b' = true ↔ K.holder s = some t) →
      (∀ u, u ≠ t → (K.holder s = some u ↔ K.holder pl.view.shared = some u)) →
      Inv K ⟨pl.view.prim id t p r s, if S'.again p r then pl.prog
        else Function.update pl.prog t (some (k r))⟩ := by
    intro b' hkind hrest hb' hothers
    obtain ⟨-, hstable, hdone⟩ := K.sound hkind h.stable hexec
    rw [if_neg (Bool.eq_false_iff.mp hdone)]
    refine ⟨?_, ?_, hstable⟩
    · intro u hu
      by_cases hut : u = t
      · subst hut
        exact ⟨k r, b', Function.update_self .., hrest, hb'⟩
      · obtain ⟨m, b, hm, hrounds, hb⟩ := h.thread u hu
        exact ⟨m, b, by simpa [hut] using hm, hrounds, hb.trans (hothers u hut).symm⟩
    · intro u hu
      by_cases hut : u = t
      · subst hut
        exact hcalls
      · exact h.holder u ((hothers u hut).mp hu)
  rcases hrounds with ⟨hown, hk⟩ | ⟨rfl, htake, hk⟩ | ⟨rfl, hgive, hk⟩
  · have hsame := K.holder_own hown h.stable hexec
    refine hgo b (Or.inl hown) (hk r (K.sound (Or.inl hown) h.stable hexec).1) ?_ fun u _ => ?_
    · rw [hsame]
      exact hb
    · rw [hsame]
  · have hkind : K.own p ∨ K.take p ∨ K.give p := Or.inr (Or.inl htake)
    obtain ⟨hfree, hnow⟩ := K.holder_take htake hexec
    refine hgo true hkind (hk r (K.sound hkind h.stable hexec).1) (iff_of_true rfl hnow) fun u hu => ?_
    rw [hnow, hfree]
    exact iff_of_false (fun heq => hu (Option.some.inj heq).symm) nofun
  · have hkind : K.own p ∨ K.take p ∨ K.give p := Or.inr (Or.inr hgive)
    have hheld := hb.mp rfl
    have hnow := K.holder_give hgive hexec hheld
    refine hgo false hkind (hk r (K.sound hkind h.stable hexec).1) ?_ fun u hu => ?_
    · rw [hnow]
      exact iff_of_false Bool.false_ne_true nofun
    · rw [hnow, hheld]
      exact iff_of_false nofun fun heq => hu (Option.some.inj heq).symm

theorem inv_of_reach (hstable : K.stable s₀) (hfree : K.holder s₀ = none)
    (hbody : ∀ v t c, ok v t c → K.Rounds false (S'.body c)) (h : S'.Reach ok s₀ pl) : Inv K pl := by
  induction h with
  | start =>
      refine ⟨fun t ht => absurd rfl ht, fun t ht => ?_, hstable⟩
      have heq := hfree.symm.trans ht
      cases heq
  | @step pl pl' _ l hok hstep ih =>
      cases l with
      | prim t x => exact ih.prim hstep
      | call t c =>
          obtain ⟨hnone, rfl⟩ := Sys.step_call hstep
          have hout : ∀ u, K.holder pl.view.shared = some u → u ≠ t := by
            rintro u hu rfl
            exact ih.holder u hu hnone
          refine ⟨fun u hu => ?_, fun u hu => ?_, ih.stable⟩
          · by_cases hut : u = t
            · subst hut
              exact ⟨_, false, Function.update_self .., hbody _ _ _ hok,
                iff_of_false Bool.false_ne_true fun hheld => hout u hheld rfl⟩
            · obtain ⟨m, b, hm, hrest⟩ := ih.thread u (by simpa [hut] using hu)
              exact ⟨m, b, by simpa [hut] using hm, hrest⟩
          · simpa [hout u hu] using ih.holder u hu
      | ret t =>
          obtain ⟨id, c, a, hc, hp, rfl⟩ := Sys.step_ret hstep
          have hout : ∀ u, K.holder pl.view.shared = some u → u ≠ t := by
            rintro u hu rfl
            obtain ⟨m, b, hm, hrounds, hb⟩ := ih.thread u (ih.holder u hu)
            rw [hp] at hm
            cases hm
            exact Bool.false_ne_true (Eq.trans (Eq.symm hrounds) (hb.mpr hu))
          refine ⟨fun u hu => ?_, fun u hu => ?_, ih.stable⟩
          · have hut : u ≠ t := by
              rintro rfl
              simp at hu
            obtain ⟨m, b, hm, hrest⟩ := ih.thread u (by simpa [hut] using hu)
            exact ⟨m, b, by simpa [hut] using hm, hrest⟩
          · simpa [hout u hu] using ih.holder u hu

/-- **Functions that take turns do not deadlock.** -/
theorem moves (hstable : K.stable s₀) (hfree : K.holder s₀ = none)
    (hbody : ∀ v t c, ok v t c → K.Rounds false (S'.body c)) (h : S'.Reach ok s₀ pl) {t : τ}
    (ht : pl.view.calls t ≠ none) : ∃ u, S'.Moves pl u := by
  have hinv := inv_of_reach hstable hfree hbody h
  -- the one who has the lock can get on, or with nobody having it anybody can
  have hmoves : ∀ u, pl.view.calls u ≠ none →
      (K.holder pl.view.shared = none ∨ K.holder pl.view.shared = some u) → S'.Moves pl u := by
    intro u hu hlock
    obtain ⟨m, b, hm, hrounds, hb⟩ := hinv.thread u hu
    obtain ⟨⟨id, c⟩, hc⟩ := Option.ne_none_iff_exists'.mp hu
    refine ⟨id, c, m, hc, hm, ?_⟩
    rintro p k rfl
    have hkind : (K.own p ∨ K.take p ∨ K.give p) ∧
        (K.own p ∨ (K.take p ∧ K.holder pl.view.shared = none) ∨
          (K.give p ∧ K.holder pl.view.shared = some u)) := by
      rcases hrounds with ⟨hown, -⟩ | ⟨rfl, htake, -⟩ | ⟨rfl, hgive, -⟩
      · exact ⟨Or.inl hown, Or.inl hown⟩
      · have hnone := hlock.resolve_right fun hheld => Bool.false_ne_true (hb.mpr hheld)
        exact ⟨Or.inr (Or.inl htake), Or.inr (Or.inl ⟨htake, hnone⟩)⟩
      · exact ⟨Or.inr (Or.inr hgive), Or.inr (Or.inr ⟨hgive, hb.mp rfl⟩)⟩
    obtain ⟨x, r, s, hexec⟩ := K.can hinv.stable hkind.2
    exact ⟨x, r, s, hexec, (K.sound hkind.1 hinv.stable hexec).2.2⟩
  rcases hlock : K.holder pl.view.shared with _ | u
  · exact ⟨t, hmoves t ht (Or.inl hlock)⟩
  · exact ⟨u, hmoves u (hinv.holder u hlock) (Or.inr hlock)⟩

end Turns

end Interleave
