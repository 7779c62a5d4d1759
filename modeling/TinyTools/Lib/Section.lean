/-
One critical section is one step.

A module whose functions have one critical section each implements them as if each were a
single step, the one in which it leaves its section.  Until then a function has worked on
a state that nobody else has touched since it took the lock, so what it has done so far it
has done alone.  That is what `InPhase` remembers of a thread: before its section nothing
that depends on the state, inside it a run from the state it found, after it a value.

The lock may protect only a part of the state, and others may change the rest at any time;
what passes by the lock is the same on either level.  `Sections` says what that part is
and what has to be shown of a function: the shape, and the outcome of a run of it alone.
-/
import TinyTools.Lib.Implement

namespace Interleave

variable {S V U O : Sig} {τ χ χ' χ'' σ σ' ρ κ α : Type}

namespace Locking

variable {L : Machine U τ χ ρ} (K : Locking L)

/-- Free primitives, one critical section, free primitives. -/
def Section : Prog U α → Prop
  | .ret _ => False
  | .step p k => (K.kind p = .free ∧ ∀ r, K.ans p r → Section (k r)) ∨
      (K.kind p = .acquire ∧ ∀ r, K.ans p r → K.Shape .inside (k r))

end Locking

/-- The part `get` of the state is protected by the lock of `K`.  Above it is `free`, as nobody has
the lock there; `same` is what is to be said of the rest. -/
structure Guard (A : Machine S τ χ σ) (C : Machine (V.sum U) τ χ' σ') {L : Machine U τ χ'' ρ}
    (K : Locking L) (O : Sig) where
  same : σ → σ' → Prop
  get : σ' → ρ
  free : σ → ρ
  holder : ∀ a, K.holder (free a) = none
  stable : ∀ a, K.stable (free a)
  /-- What is shown of a primitive on either level. -/
  shown : Showing S O
  shown' : Showing (V.sum U) O

namespace Guard

variable {A : Machine S τ χ σ} {C : Machine (V.sum U) τ χ' σ'} {L : Machine U τ χ'' ρ}
  {K : Locking L} (X : Guard A C K O) (h : (p : S.Op) → Prog (V.sum U) (S.Res p)) (Q : U.Op → Prop)

/-- The program of `p` is one primitive, which leaves what is protected alone. -/
def Passes (p : S.Op) : Prop :=
  ∃ (q : (V.sum U).Op) (e : (V.sum U).Res q → S.Res p), h p = .step q (fun r => .ret (e r)) ∧
    (∀ x t a c r c', X.same a c → C.exec x t q c = some (r, c') → X.get c' = X.get c ∧
      ∃ y a', A.exec y t p a = some (e r, a') ∧ X.same a' c' ∧ X.free a' = X.free a) ∧
    ∀ r, A.again p (e r) = C.again q r ∧ X.shown ⟨p, e r⟩ = X.shown' ⟨q, r⟩

/-- The program of `p` has one critical section, of which nothing is seen, and alone it does what
the primitive does. -/
structure Enters (p : S.Op) (m : Prog U (S.Res p)) : Prop where
  program : h p = m.inr
  comes : m.Every Q
  shape : K.Section m
  unseen : ∀ r, X.shown ⟨p, r⟩ = none
  outcome : ∀ {t a es r s}, L.Run t m (X.free a) es r s →
    ∃ y a', A.exec y t p a = some (r, a') ∧ A.again p r = false ∧ X.free a' = s ∧
      ∀ c, X.same a c → X.same a' c

end Guard

/-- Of the primitives of the protected part, those of which `Q` holds are what the critical
functions consist of. -/
structure Sections {A : Machine S τ χ σ} {C : Machine (V.sum U) τ χ' σ'} {L : Machine U τ χ'' ρ}
    {K : Locking L} (X : Guard A C K O) (h : (p : S.Op) → Prog (V.sum U) (S.Res p))
    (P : S.Op → Prop) (Q : U.Op → Prop) : Prop where
  step : ∀ {x t q c r c'}, Q q → C.exec x t (.inr q) c = some (r, c') →
    (∃ y, L.exec y t q (X.get c) = some (r, X.get c')) ∧ ∀ a, X.same a c → X.same a c'
  again : ∀ q r, Q q → C.again (.inr q) r = L.again q r
  unseen : ∀ q r, Q q → X.shown' ⟨.inr q, r⟩ = none
  each : ∀ {p}, P p → X.Passes h p ∨ ∃ m, X.Enters h Q p m

namespace Sections

variable {A : Machine S τ χ σ} {C : Machine (V.sum U) τ χ' σ'} {L : Machine U τ χ'' ρ}
  {K : Locking L} {X : Guard A C K O} {h : (p : S.Op) → Prog (V.sum U) (S.Res p)}
  {P : S.Op → Prop} {Q : U.Op → Prop}

/-- Above each function is one step. -/
@[reducible] def levels (_ : Sections X h P Q) : Levels S (V.sum U) O τ χ χ' σ σ' where
  upper := A
  lower := C
  shown := X.shown
  shown' := X.shown'
  rel a c := X.same a c ∧ K.stable (X.get c) ∧ (K.holder (X.get c) = none → X.get c = X.free a)

/-- What is known of a thread in the midst of the function `m₀`, which has come to `m`. -/
inductive InPhase (X : Guard A C K O) (a : σ) (c : σ') (t : τ) (m₀ : Prog U α) :
    Option α → Prog U α → Prop
  | before {m : Prog U α} (hshape : K.Section m)
      (hsteps : ∀ s, K.stable s → ∃ es, L.Steps t m₀ s es m s) : InPhase X a c t m₀ none m
  | inside {m : Prog U α} (hshape : K.Shape .inside m) (hin : K.holder (X.get c) = some t)
      (hsteps : ∃ es, L.Steps t m₀ (X.free a) es m (X.get c)) : InPhase X a c t m₀ none m
  | after {m : Prog U α} {r : α} (hshape : K.Shape .after m)
      (hrest : ∃ es, ∀ s, K.stable s → L.Run t m s es r s) : InPhase X a c t m₀ (some r) m

/-- What is known of a thread that performs a primitive. -/
inductive Busy (X : Guard A C K O) (h : (p : S.Op) → Prog (V.sum U) (S.Res p)) (Q : U.Op → Prop)
    (a : σ) (c : σ') (t : τ) (p : S.Op) : Option (S.Res p) → Prog (V.sum U) (S.Res p) → Prop
  | passing (hp : X.Passes h p) : Busy X h Q a c t p none (h p)
  | passed (r : S.Res p) : Busy X h Q a c t p (some r) (.ret r)
  | critical {m₀ m : Prog U (S.Res p)} {ans : Option (S.Res p)} (hp : X.Enters h Q p m₀)
      (hm : m.Every Q) (hphase : InPhase X a c t m₀ ans m) : Busy X h Q a c t p ans m.inr

variable {a a' : σ} {c c' : σ'} {t u : τ}

/-- A thread that did not move, and in whose section nobody else was. -/
theorem InPhase.other {m₀ m : Prog U α} {ans : Option α} (hm : InPhase X a c u m₀ ans m)
    (hin : K.holder (X.get c) = some u → X.get c' = X.get c ∧ X.free a' = X.free a) :
    InPhase X a' c' u m₀ ans m := by
  cases hm with
  | before hshape hsteps => exact .before hshape hsteps
  | inside hshape hheld hsteps =>
      obtain ⟨hget, hfree⟩ := hin hheld
      exact .inside hshape (by rw [hget, hheld]) (by rw [hget, hfree]; exact hsteps)
  | after hshape hrest => exact .after hshape hrest

theorem Busy.other {p : S.Op} {ans : Option (S.Res p)} {m : Prog (V.sum U) (S.Res p)}
    (hm : Busy X h Q a c u p ans m)
    (hin : K.holder (X.get c) = some u → X.get c' = X.get c ∧ X.free a' = X.free a) :
    Busy X h Q a' c' u p ans m := by
  cases hm with
  | passing hp => exact .passing hp
  | passed r => exact .passed r
  | critical hp hQ hphase => exact .critical hp hQ (hphase.other hin)

theorem InPhase.finish {m₀ : Prog U α} {ans : Option α} {r : α}
    (hm : InPhase X a c t m₀ ans (.ret r)) : ans = some r := by
  cases hm with
  | before hshape => exact hshape.elim
  | inside hshape => exact absurd rfl hshape
  | after _ hrest =>
      obtain ⟨es, hes⟩ := hrest
      obtain ⟨-, rfl, -⟩ := Machine.run_ret_iff.mp (hes _ (X.stable a))
      rfl

/-- One step of a function with a critical section. -/
theorem step_function (Y : Sections X h P Q) {x : χ'} {p : S.Op} {m₀ : Prog U (S.Res p)}
    {ans : Option (S.Res p)} {q : U.Op} {k : U.Res q → Prog U (S.Res p)} {r : U.Res q}
    (hp : X.Enters h Q p m₀) (hQ : Q q) (hrel : Y.levels.rel a c)
    (hm : InPhase X a c t m₀ ans (.step q k)) (hexec : C.exec x t (.inr q) c = some (r, c')) :
    ∃ (a' : σ) (ans' : Option (S.Res p)),
      Effect Y.levels t p a ans a' ans' (X.shown' ⟨.inr q, r⟩) ∧
      Y.levels.rel a' c' ∧ C.again (.inr q) r = false ∧ InPhase X a' c' t m₀ ans' (k r) ∧
      ∀ u, u ≠ t → K.holder (X.get c) = some u → X.get c' = X.get c ∧ X.free a' = X.free a := by
  obtain ⟨hsame, hstable, hfree⟩ := hrel
  obtain ⟨⟨y, hinner⟩, hrest⟩ := Y.step hQ hexec
  have hnever : ∀ {k : LockKind}, K.kind q = k → k ≠ .never → K.kind q ≠ .never :=
    fun hq hk => hq ▸ hk
  rw [Y.unseen q r hQ, Y.again q r hQ]
  cases hm with
  | before hshape hsteps =>
      rcases hshape with ⟨hq, hk⟩ | ⟨hq, hk⟩
      · obtain ⟨r₀, -, huniq, hall⟩ := K.free (t := t) hq
        obtain ⟨hans, -, hagain⟩ := K.sound (hnever hq (by decide)) hstable hinner
        have hget : X.get c' = X.get c := (hall _ hstable).2 y r _ hinner
        refine ⟨a, none, .none _ _, ⟨hrest a hsame, ?_, ?_⟩, hagain, ?_, fun u _ _ => ⟨hget, rfl⟩⟩
        · rwa [hget]
        · rwa [hget]
        · refine .before (hk r hans) fun s hs => ?_
          obtain ⟨es, hes⟩ := hsteps s hs
          obtain ⟨y', hy'⟩ := (hall s hs).1
          rw [← huniq r hans] at hy'
          exact ⟨_, hes.snoc hy' hagain⟩
      · obtain ⟨hans, hstable', hagain⟩ := K.sound (hnever hq (by decide)) hstable hinner
        obtain ⟨hold, hnow⟩ := K.acquire hq hinner
        refine ⟨a, none, .none _ _, ⟨hrest a hsame, hstable', ?_⟩, hagain, ?_, ?_⟩
        · intro hnone
          rw [hnow] at hnone
          cases hnone
        · -- it finds what is there while nobody has the lock
          obtain ⟨es, hes⟩ := hsteps (X.free a) (X.stable a)
          rw [hfree hold] at hinner
          exact .inside (hk r hans) hnow ⟨_, hes.snoc hinner hagain⟩
        · intro u _ hu
          rw [hold] at hu
          cases hu
  | inside hshape hin hsteps =>
      obtain ⟨ph, hnext, hk⟩ := hshape
      obtain ⟨es, hes⟩ := hsteps
      have hothers : ∀ u, u ≠ t → K.holder (X.get c) ≠ some u := by
        rintro u hu hheld
        rw [hin] at hheld
        exact hu (Option.some.inj hheld).symm
      rcases Phase.next_inside hnext with ⟨hq, rfl⟩ | ⟨hq, rfl⟩
      · obtain ⟨hans, hstable', hagain⟩ := K.sound (hnever hq (by decide)) hstable hinner
        have hnow : K.holder (X.get c') = some t := (K.inside hq hinner).trans hin
        refine ⟨a, none, .none _ _, ⟨hrest a hsame, hstable', ?_⟩, hagain,
          .inside (hk r hans) hnow ⟨_, hes.snoc hinner hagain⟩,
          fun u hu hheld => absurd hheld (hothers u hu)⟩
        intro hnone
        rw [hnow] at hnone
        cases hnone
      · obtain ⟨hans, hstable', hagain⟩ := K.sound (hnever hq (by decide)) hstable hinner
        obtain ⟨es', v, hrun⟩ := Locking.run_of_after (t := t) (hk r hans)
        obtain ⟨y', a', hupper, hdone, hfree', hsame'⟩ :=
          hp.outcome ((hes.snoc hinner hagain).run (hrun _ hstable'))
        refine ⟨a', some v, ?_, ⟨hsame' c' (hrest a hsame), hstable', fun _ => hfree'.symm⟩, hagain,
          .after (hk r hans) ⟨es', hrun⟩, fun u hu hheld => absurd hheld (hothers u hu)⟩
        rw [← hp.unseen v]
        exact .now (D := Y.levels) y' hupper hdone
  | @after _ v hshape hafter =>
      obtain ⟨ph, hnext, hk⟩ := hshape
      obtain ⟨hq, rfl⟩ := Phase.next_after hnext
      obtain ⟨r₀, -, huniq, hall⟩ := K.free (t := t) hq
      obtain ⟨hans, -, hagain⟩ := K.sound (hnever hq (by decide)) hstable hinner
      have hget : X.get c' = X.get c := (hall _ hstable).2 y r _ hinner
      obtain ⟨es, hes⟩ := hafter
      refine ⟨a, some v, .none _ _, ⟨hrest a hsame, ?_, ?_⟩, hagain, .after (hk r hans) ?_,
        fun u _ _ => ⟨hget, rfl⟩⟩
      · rwa [hget]
      · rwa [hget]
      · obtain ⟨r₁, es₁, hans₁, rfl, -⟩ := Locking.run_step_free hq hstable (hes _ hstable)
        refine ⟨es₁, fun s hs => ?_⟩
        obtain ⟨r₂, es₂, hans₂, heq, hrun⟩ := Locking.run_step_free hq hs (hes s hs)
        cases heq
        rwa [huniq r hans, ← huniq r₁ hans₁]

/-- One step that passes by the lock. -/
theorem step_passing (Y : Sections X h P Q) {x : χ'} {p : S.Op} {q : (V.sum U).Op}
    {k : (V.sum U).Res q → Prog (V.sum U) (S.Res p)} {r : (V.sum U).Res q} (hp : X.Passes h p)
    (hh : h p = .step q k) (hrel : Y.levels.rel a c) (hexec : C.exec x t q c = some (r, c')) :
    ∃ (a' : σ) (ans' : Option (S.Res p)),
      Effect Y.levels t p a none a' ans' (X.shown' ⟨q, r⟩) ∧ Y.levels.rel a' c' ∧
      Busy X h Q a' c' t p ans' (if C.again q r then .step q k else k r) ∧
      X.get c' = X.get c ∧ X.free a' = X.free a := by
  obtain ⟨q', e, hq, hstep, hsame⟩ := id hp
  rw [hq] at hh
  cases hh
  obtain ⟨hget, y, a', hupper, hrest, hfree⟩ := hstep x t a c r c' hrel.1 hexec
  obtain ⟨hagain, hshown⟩ := hsame r
  have hrel' : Y.levels.rel a' c' := by
    refine ⟨hrest, ?_, ?_⟩
    · rw [hget]
      exact hrel.2.1
    · rw [hget, hfree]
      exact hrel.2.2
  rw [← hshown]
  rcases hdone : C.again q r with _ | _
  · refine ⟨a', some (e r), .now (D := Y.levels) y hupper (hagain.trans hdone), hrel', ?_, hget, hfree⟩
    exact .passed (e r)
  · refine ⟨a', none, .again (D := Y.levels) y hupper (hagain.trans hdone), hrel', ?_, hget, hfree⟩
    rw [if_pos rfl, ← hq]
    exact .passing hp

/-- **Functions with one critical section each implement their interface.** -/
def implements (Y : Sections X h P Q) : Implements Y.levels h P where
  busy := Busy X h Q
  start := by
    intro a c t p hp _
    rcases Y.each hp with hpass | ⟨m, hm⟩
    · exact .passing hpass
    · rw [hm.program]
      exact .critical hm hm.comes (.before hm.shape fun s _ => ⟨[], .refl⟩)
  finish := by
    intro a c t p ans r hb
    generalize hm : Prog.ret r = m at hb
    cases hb with
    | passing hp =>
        obtain ⟨q, e, hq, -⟩ := hp
        rw [hq] at hm
        cases hm
    | passed v =>
        cases hm
        rfl
    | @critical _ m' _ _ _ hphase =>
        cases m' with
        | step q k => cases hm
        | ret v =>
            cases hm
            exact hphase.finish
  step := by
    intro a c x t p ans q k r c' hrel hb hexec
    generalize hm : Prog.step q k = m at hb
    cases hb with
    | passing hp =>
        obtain ⟨a', ans', heffect, hrel', hbusy, hget, hfree⟩ := Y.step_passing hp hm.symm hrel hexec
        rw [hm] at hbusy
        exact ⟨a', ans', heffect, hrel', hm ▸ hbusy,
          fun u p' ans m _ hm => hm.other fun _ => ⟨hget, hfree⟩⟩
    | passed v => cases hm
    | @critical m₀ m' _ hp hQ hphase =>
        cases m' with
        | ret v => cases hm
        | step q' k' =>
            cases hm
            obtain ⟨a', ans', heffect, hrel', hagain, hphase', hothers⟩ :=
              Y.step_function hp hQ.1 hrel hphase hexec
            refine ⟨a', ans', heffect, hrel', ?_, fun u _ _ _ hu hm => hm.other (hothers u hu)⟩
            show Busy X h Q a' c' t p ans' (if C.again (.inr q') r then _ else _)
            rw [if_neg (Bool.eq_false_iff.mp hagain)]
            exact .critical hp (hQ.2 r) hphase'

end Sections

end Interleave
