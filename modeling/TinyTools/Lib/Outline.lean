/-
Invariants of interleaved programs, proved one function at a time.

An invariant of a pool has to be kept by every step of every thread, and where a
thread stands matters to it.  Rather than naming the points of each function, every
thread carries a ghost value that says what its remaining program may rely on.  An
`Outline` is an invariant over the view and all ghosts; `Wp` says that a program,
started with a given ghost, keeps the invariant at each of its nodes whatever the
other threads do in between, changing no ghost but its own.

`Outline.sound` is the one induction over runs.  A development proves `Wp` of each
function body, and gets the invariant, and the obligation `pre` at every primitive
about to be performed, in every reachable pool.

An outline may give up on runs in which something has happened, `stop`: nothing is
claimed, and nothing has to be shown, from then on.
-/
import TinyTools.Lib.Pool

namespace Interleave

variable {S : Sig} {τ χ σ κ α β γ δ : Type} [DecidableEq τ]

/-- An invariant over the view and the ghosts of all threads. -/
structure Outline (S : Sig) (τ σ κ α γ : Type) where
  /-- What the ghost of a thread outside any call may be. -/
  idle : γ → Prop
  inv : View S τ σ κ α → (τ → γ) → Prop
  /-- What must hold whenever a thread is about to perform a primitive. -/
  pre : View S τ σ κ α → τ → S.Op → Prop := fun _ _ _ => True
  /-- Runs are followed until this has happened. -/
  stop : List (Event S τ κ α) → Prop := fun _ => False
  stop_snoc : ∀ tr e, stop tr → stop (tr ++ [e]) := by exact fun _ _ h => h

namespace Outline

variable (O : Outline S τ σ κ α γ) (M : Machine S τ χ σ) (t : τ) (id : Nat) (c : κ)

/-- From ghost `g`, thread `t` in call `id` of `c` may run `m` to a result and ghost that
satisfy `Q`. -/
def Wp : Prog S β → (β → γ → Prop) → γ → Prop
  | .ret a, Q, g => Q a g
  | .step p k, Q, g =>
      ∀ v G, Books v → O.inv v G → G t = g → v.calls t = some (id, c) →
        O.pre v t p ∧ ∀ x r s, M.exec x t p v.shared = some (r, s) →
          ¬ O.stop (v.prim id t p r s).trace →
          if M.again p r then O.inv (v.prim id t p r s) G
          else ∃ g', O.inv (v.prim id t p r s) (Function.update G t g') ∧ Wp (k r) Q g'

/-- What has to hold when a call comes to its value: returning it keeps the invariant. -/
def Final (a : α) (g : γ) : Prop :=
  ∀ v G, Books v → O.inv v G → G t = g → v.calls t = some (id, c) →
    ¬ O.stop (v.ret id t c a).trace →
      ∃ g', O.idle g' ∧ O.inv (v.ret id t c a) (Function.update G t g')

variable {O M t id c}

theorem Wp.mono {m : Prog S β} {Q Q' : β → γ → Prop} (hle : ∀ a g, Q a g → Q' a g) :
    ∀ {g : γ}, O.Wp M t id c m Q g → O.Wp M t id c m Q' g := by
  induction m with
  | ret a => intro g h; exact hle a g h
  | step p k ih =>
      intro g h v G hb hinv hg hc
      obtain ⟨hpre, hstep⟩ := h v G hb hinv hg hc
      refine ⟨hpre, ?_⟩
      intro x r s hexec hstop
      have hs := hstep x r s hexec hstop
      split at hs
      · rename_i hagain
        rw [if_pos hagain]
        exact hs
      · rename_i hagain
        rw [if_neg hagain]
        obtain ⟨g', hinv', hk⟩ := hs
        exact ⟨g', hinv', ih r hk⟩

/-- The rule of composition. -/
theorem Wp.bind {m : Prog S δ} {f : δ → Prog S β} {Q : β → γ → Prop} :
    ∀ {g : γ}, O.Wp M t id c m (fun a g' => O.Wp M t id c (f a) Q g') g →
      O.Wp M t id c (m >>= f) Q g := by
  induction m with
  | ret a => intro g h; exact h
  | step p k ih =>
      intro g h v G hb hinv hg hc
      obtain ⟨hpre, hstep⟩ := h v G hb hinv hg hc
      refine ⟨hpre, ?_⟩
      intro x r s hexec hstop
      have hs := hstep x r s hexec hstop
      split at hs
      · rename_i hagain
        rw [if_pos hagain]
        exact hs
      · rename_i hagain
        rw [if_neg hagain]
        obtain ⟨g', hinv', hk⟩ := hs
        exact ⟨g', hinv', ih r hk⟩

/-- One node, on a machine that never asks for the same primitive again. -/
theorem Wp.step {p : S.Op} {k : S.Res p → Prog S β} {Q : β → γ → Prop} {g : γ}
    (hM : ∀ p r, M.again p r = false)
    (h : ∀ v G, Books v → O.inv v G → G t = g → v.calls t = some (id, c) →
      O.pre v t p ∧ ∀ x r s, M.exec x t p v.shared = some (r, s) →
        ¬ O.stop (v.prim id t p r s).trace →
        ∃ g', O.inv (v.prim id t p r s) (Function.update G t g') ∧ O.Wp M t id c (k r) Q g') :
    O.Wp M t id c (.step p k) Q g := by
  intro v G hb hinv hg hc
  obtain ⟨hpre, hstep⟩ := h v G hb hinv hg hc
  refine ⟨hpre, ?_⟩
  intro x r s hexec hstop
  rw [if_neg (by rw [hM]; exact Bool.false_ne_true)]
  exact hstep x r s hexec hstop

omit [DecidableEq τ] in
/-- What is known of every thread at its ghost is known of a thread at the ghost it is found at. -/
theorem at_ghost {K : τ → γ → Prop} {G : τ → γ} (h : ∀ u, K u (G u)) {g : γ} (hg : G t = g) :
    K t g := by
  rw [← hg]
  exact h t

/-! ### What the ghosts own

A ghost may say that its thread has something in hand, an `a`, that nobody else has. -/

section Owners

variable {ρ : Type} {owns : γ → Option ρ} {G : τ → γ} {g : γ} {a : ρ}

/-- No two threads have the same in hand. -/
def Exclusive (owns : γ → Option ρ) (G : τ → γ) : Prop :=
  ∀ t u a, owns (G t) = some a → owns (G u) = some a → t = u

omit [DecidableEq τ] in
theorem Exclusive.others (h : Exclusive owns G) (ha : owns (G t) = some a) :
    ∀ u, u ≠ t → owns (G u) ≠ some a := by
  intro u hu hua
  exact hu (h u t a hua ha)

/-- Who has what in hand once `t` has taken or put down `a`, which nobody else has. -/
theorem owns_update (hmine : ∀ u, u ≠ t → owns (G u) ≠ some a)
    (hafter : ∀ b, owns g = some b → b = a) {u : τ} {b : ρ}
    (h : owns (Function.update G t g u) = some b) :
    (u = t ∧ b = a ∧ owns g = some a) ∨ (u ≠ t ∧ b ≠ a ∧ owns (G u) = some b) := by
  by_cases hut : u = t
  · subst hut
    rw [Function.update_self] at h
    have hba := hafter b h
    subst hba
    exact Or.inl ⟨rfl, rfl, h⟩
  · rw [Function.update_of_ne hut] at h
    refine Or.inr ⟨hut, ?_, h⟩
    intro hba
    subst hba
    exact hmine u hut h

theorem Exclusive.update (h : Exclusive owns G) (hmine : ∀ u, u ≠ t → owns (G u) ≠ some a)
    (hafter : ∀ b, owns g = some b → b = a) : Exclusive owns (Function.update G t g) := by
  intro u₁ u₂ b h₁ h₂
  rcases owns_update hmine hafter h₁ with ⟨hu₁, hb, -⟩ | ⟨-, hb, h₁'⟩
  · rcases owns_update hmine hafter h₂ with ⟨hu₂, -, -⟩ | ⟨-, hb', -⟩
    · exact hu₁.trans hu₂.symm
    · exact absurd hb hb'
  · rcases owns_update hmine hafter h₂ with ⟨-, hb', -⟩ | ⟨-, -, h₂'⟩
    · exact absurd hb' hb
    · exact h u₁ u₂ b h₁' h₂'

end Owners

/-! ### One outline over another

An invariant that is there already can be built on: the ghosts of the outline over it
say more, `base` is what the one below knows of them, and `extra` what the outline adds
to its invariant.  Each step is taken twice, and the second time the first invariant
holds before and after it. -/

section Over

variable {O : Outline S τ σ κ α γ} {M : Machine S τ χ σ} {t : τ} {id : Nat} {c : κ}

/-- The outline that adds `extra` to `O`. -/
def extend (O : Outline S τ σ κ α γ) (base : δ → γ) (idle : δ → Prop)
    (extra : View S τ σ κ α → (τ → δ) → Prop) (stop : List (Event S τ κ α) → Prop)
    (hstop : ∀ tr e, stop tr → stop (tr ++ [e])) : Outline S τ σ κ α δ where
  idle := idle
  inv v G := O.inv v (base ∘ G) ∧ extra v G
  pre := O.pre
  stop tr := O.stop tr ∨ stop tr
  stop_snoc tr e h := h.imp (O.stop_snoc tr e) (hstop tr e)

variable {base : δ → γ} {idle : δ → Prop} {extra : View S τ σ κ α → (τ → δ) → Prop}
  {stop : List (Event S τ κ α) → Prop} {hstop : ∀ tr e, stop tr → stop (tr ++ [e])}

/-- One node: `O` says that its ghost comes to `f r`, the rest is to be shown beside that. -/
theorem Wp.extend {p : S.Op} {k : S.Res p → Prog S β} {Q : β → δ → Prop} {g : δ}
    (f : S.Res p → γ) (hM : ∀ p r, M.again p r = false)
    (hO : O.Wp M t id c (.step p .ret) (fun r g' => g' = f r) (base g))
    (h : ∀ v G, Books v → O.inv v (base ∘ G) → extra v G → G t = g → v.calls t = some (id, c) →
      ∀ x r s, M.exec x t p v.shared = some (r, s) → ¬ stop (v.prim id t p r s).trace →
        O.inv (v.prim id t p r s) (Function.update (base ∘ G) t (f r)) →
        ∃ g', base g' = f r ∧ extra (v.prim id t p r s) (Function.update G t g') ∧
          (O.extend base idle extra stop hstop).Wp M t id c (k r) Q g') :
    (O.extend base idle extra stop hstop).Wp M t id c (.step p k) Q g := by
  refine Wp.step hM ?_
  intro v G hb hinv hgt hc
  have hgt' : (base ∘ G) t = base g := congrArg base hgt
  obtain ⟨hpre, hstep⟩ := hO v (base ∘ G) hb hinv.1 hgt' hc
  refine ⟨hpre, ?_⟩
  intro x r s hexec hnot
  have hs := hstep x r s hexec fun hO => hnot (Or.inl hO)
  rw [if_neg (by rw [hM]; exact Bool.false_ne_true)] at hs
  obtain ⟨_, hinv', rfl⟩ := hs
  obtain ⟨g', hg', hextra, hk⟩ := h v G hb hinv.1 hinv.2 hgt hc x r s hexec
    (fun hs => hnot (Or.inr hs)) hinv'
  refine ⟨g', ⟨?_, hextra⟩, hk⟩
  rw [Function.comp_update, hg']
  exact hinv'

/-- A call that comes to its value: `O` has its own ghosts for threads outside any call. -/
theorem Final.extend {a : α} {g g' : δ} (hg' : idle g') (hidle : ∀ g₁, O.idle g₁ → base g' = g₁)
    (hO : O.Final t id c a (base g))
    (h : ∀ v G, Books v → O.inv v (base ∘ G) → extra v G → G t = g → v.calls t = some (id, c) →
      extra (v.ret id t c a) (Function.update G t g')) :
    (O.extend base idle extra stop hstop).Final t id c a g := by
  intro v G hb hinv hgt hc hnot
  obtain ⟨g₁, hg₁, hinv'⟩ := hO v (base ∘ G) hb hinv.1 (congrArg base hgt) hc
    fun hO => hnot (Or.inl hO)
  refine ⟨g', hg', ⟨?_, h v G hb hinv.1 hinv.2 hgt hc⟩⟩
  rw [Function.comp_update, hidle g₁ hg₁]
  exact hinv'

end Over

/-! ### More to be shown at each step

Where the ghosts of an outline say enough, an invariant beside its own and an obligation
at the primitives follow from what it says of each node, taken for itself. -/

section Demand

variable {O : Outline S τ σ κ α γ} {M : Machine S τ χ σ} {t : τ} {id : Nat} {c : κ}

/-- The outline that has `extra` kept as well, and `pre` met. -/
def demand (O : Outline S τ σ κ α γ) (pre : View S τ σ κ α → τ → S.Op → Prop)
    (extra : View S τ σ κ α → (τ → γ) → Prop) : Outline S τ σ κ α γ where
  idle := O.idle
  inv v G := O.inv v G ∧ extra v G
  pre v t p := O.pre v t p ∧ pre v t p
  stop := O.stop
  stop_snoc := O.stop_snoc

variable {pre : View S τ σ κ α → τ → S.Op → Prop} {extra : View S τ σ κ α → (τ → γ) → Prop}

/-- One node: `O` says what its ghost may come to. -/
theorem Wp.demand {p : S.Op} {k : S.Res p → Prog S β} {Q : β → γ → Prop} {g : γ}
    {R : S.Res p → γ → Prop} (hM : ∀ p r, M.again p r = false)
    (hO : O.Wp M t id c (.step p .ret) R g)
    (h : ∀ v G, Books v → O.inv v G → extra v G → G t = g → v.calls t = some (id, c) →
      pre v t p ∧ ∀ x r s g', M.exec x t p v.shared = some (r, s) → R r g' →
        extra (v.prim id t p r s) (Function.update G t g'))
    (hk : ∀ r g', R r g' → (O.demand pre extra).Wp M t id c (k r) Q g') :
    (O.demand pre extra).Wp M t id c (.step p k) Q g := by
  refine Wp.step hM ?_
  rintro v G hb ⟨hinv, hextra⟩ hgt hc
  obtain ⟨hpre, hstep⟩ := hO v G hb hinv hgt hc
  obtain ⟨hpre', hkeep⟩ := h v G hb hinv hextra hgt hc
  refine ⟨⟨hpre, hpre'⟩, ?_⟩
  intro x r s hexec hnot
  have hs := hstep x r s hexec hnot
  rw [if_neg (by rw [hM]; exact Bool.false_ne_true)] at hs
  obtain ⟨g', hinv', hR⟩ := hs
  exact ⟨g', ⟨hinv', hkeep x r s g' hexec hR⟩, hk r g' hR⟩

/-- A call that comes to its value. -/
theorem Final.demand {a : α} {g : γ} (hO : O.Final t id c a g)
    (h : ∀ v G g', O.inv v G → extra v G → G t = g → v.calls t = some (id, c) → O.idle g' →
      O.inv (v.ret id t c a) (Function.update G t g') →
      extra (v.ret id t c a) (Function.update G t g')) :
    (O.demand pre extra).Final t id c a g := by
  rintro v G hb ⟨hinv, hextra⟩ hgt hc hnot
  obtain ⟨g', hidle, hinv'⟩ := hO v G hb hinv hgt hc hnot
  exact ⟨g', hidle, hinv', h v G g' hinv hextra hgt hc hidle hinv'⟩

end Demand

/-! ### Soundness -/

variable {S' : Sys S τ χ σ κ α} {ok : View S τ σ κ α → τ → κ → Prop} {s₀ : σ}

/-- What a thread's ghost says of the thread. -/
def Thread (O : Outline S τ σ κ α γ) (S' : Sys S τ χ σ κ α) (pl : Pool S τ σ κ α) (t : τ)
    (g : γ) : Prop :=
  match pl.view.calls t, pl.prog t with
  | none, _ => O.idle g
  | some (id, c), some m => O.Wp S'.toMachine t id c m (O.Final t id c) g
  | some _, none => False

/-- A thread that did not move keeps its ghost. -/
theorem Thread.other {pl pl' : Pool S τ σ κ α} {u : τ} {g : γ}
    (hcalls : pl'.view.calls u = pl.view.calls u) (hprog : pl'.prog u = pl.prog u)
    (h : O.Thread S' pl u g) : O.Thread S' pl' u g := by
  unfold Thread at h ⊢
  rw [hcalls, hprog]
  exact h

/--
**Every reachable pool satisfies the invariant**, for some ghosts and as long as
nothing has stopped the run, provided it holds initially and every call can be
started from an idle ghost.
-/
theorem sound
    (hstart : ∃ G, O.inv (.start s₀) G ∧ ∀ t, O.idle (G t))
    (hcall : ∀ v G t c, Books v → O.inv v G → v.calls t = none → O.idle (G t) → ok v t c →
      ¬ O.stop (v.call t c).trace → ∃ g, O.inv (v.call t c) (Function.update G t g) ∧
        O.Wp S'.toMachine t v.next c (S'.body c) (O.Final t v.next c) g)
    {pl : Pool S τ σ κ α} (h : S'.Reach ok s₀ pl) (hstop : ¬ O.stop pl.view.trace) :
    ∃ G, O.inv pl.view G ∧ ∀ t, O.Thread S' pl t (G t) := by
  induction h with
  | start => exact hstart
  | @step pl pl' hreach l hok hstep ih =>
      have hb : Books pl.view := hreach.books
      have hbefore : ∀ e, pl'.view.trace = pl.view.trace ++ [e] → ¬ O.stop pl.view.trace := by
        intro e he hs
        rw [he] at hstop
        exact hstop (O.stop_snoc _ e hs)
      cases l with
      | call t c =>
          obtain ⟨hnone, rfl⟩ := Sys.step_call hstep
          obtain ⟨G, hinv, hth⟩ := ih (hbefore _ rfl)
          have hidle : O.idle (G t) := by simpa [Thread, hnone] using hth t
          obtain ⟨g, hinv', hwp⟩ := hcall _ G t c hb hinv hnone hidle hok hstop
          refine ⟨Function.update G t g, hinv', ?_⟩
          intro u
          by_cases hu : u = t
          · subst hu
            simpa [Thread] using hwp
          · rw [Function.update_of_ne hu]
            exact (hth u).other (by simp [hu]) (by simp [hu])
      | prim t x =>
          obtain ⟨id, c, p, k, r, s, hc, hp, hexec, rfl⟩ := Sys.step_prim hstep
          obtain ⟨G, hinv, hth⟩ := ih (hbefore _ rfl)
          have hwp : O.Wp S'.toMachine t id c (.step p k) (O.Final t id c) (G t) := by
            simpa [Thread, hc, hp] using hth t
          obtain ⟨-, hnext⟩ := hwp _ G hb hinv rfl hc
          have hs := hnext x r s hexec hstop
          by_cases hagain : S'.again p r = true
          · -- the thread stays where it is, and so does its ghost
            rw [if_pos hagain] at hs
            refine ⟨G, hs, ?_⟩
            intro u
            refine Thread.other ?_ ?_ (hth u)
            · rfl
            · simp [hagain]
          · rw [if_neg hagain] at hs
            obtain ⟨g', hinv', hk⟩ := hs
            refine ⟨Function.update G t g', hinv', ?_⟩
            intro u
            by_cases hu : u = t
            · subst hu
              simpa [Thread, hc, hagain] using hk
            · rw [Function.update_of_ne hu]
              refine Thread.other ?_ ?_ (hth u)
              · rfl
              · simp [hagain, hu]
      | ret t =>
          obtain ⟨id, c, a, hc, hp, rfl⟩ := Sys.step_ret hstep
          obtain ⟨G, hinv, hth⟩ := ih (hbefore _ rfl)
          have hfin : O.Final t id c a (G t) := by simpa [Thread, Wp, hc, hp] using hth t
          obtain ⟨g', hidle, hinv'⟩ := hfin _ G hb hinv rfl hc hstop
          refine ⟨Function.update G t g', hinv', ?_⟩
          intro u
          by_cases hu : u = t
          · subst hu
            simpa [Thread] using hidle
          · rw [Function.update_of_ne hu]
            exact (hth u).other (by simp [hu]) (by simp [hu])

/-- **Every primitive about to be performed meets its obligation.** -/
theorem sound_pre
    (hstart : ∃ G, O.inv (.start s₀) G ∧ ∀ t, O.idle (G t))
    (hcall : ∀ v G t c, Books v → O.inv v G → v.calls t = none → O.idle (G t) → ok v t c →
      ¬ O.stop (v.call t c).trace → ∃ g, O.inv (v.call t c) (Function.update G t g) ∧
        O.Wp S'.toMachine t v.next c (S'.body c) (O.Final t v.next c) g)
    {pl : Pool S τ σ κ α} (h : S'.Reach ok s₀ pl) (hstop : ¬ O.stop pl.view.trace) {t : τ}
    {id : Nat} {c : κ} {p : S.Op} {k : S.Res p → Prog S α} (hc : pl.view.calls t = some (id, c))
    (hp : pl.prog t = some (.step p k)) : O.pre pl.view t p := by
  obtain ⟨G, hinv, hth⟩ := sound hstart hcall h hstop
  have hwp : O.Wp S'.toMachine t id c (.step p k) (O.Final t id c) (G t) := by
    simpa [Thread, hc, hp] using hth t
  exact (hwp _ G h.books hinv rfl hc).1

end Outline

end Interleave
