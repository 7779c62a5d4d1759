/-
Implementations that let their callers get on.

An implementation of an interface may make a thread wait where a primitive of the
interface would: `Implements.Live` says that it does nowhere else.  Then a thread that
can get on over the interface can get on in the linked system, and the calls there
complete as well.

Most implementations wait for nobody in particular.  `Levels.implements` is for programs
that work on a state of their own and count on nothing between their steps but that the
states correspond: each of them is walked through once, with `Waiting` up to the step at
which its primitive takes place and `Answered` after that.
-/
import TinyTools.Lib.Progress
import TinyTools.Lib.Refine

namespace Interleave

variable {S T U V O O' : Sig} {τ χ χ' σ σ' κ α : Type}

/-! ### Calls that run alone -/

namespace Machine

/-- What is run of a composition begins with a run of the first program. -/
theorem run_bind {M : Machine S τ χ σ} {t : τ} {β : Type} {m : Prog S β} {f : β → Prog S α} {a : α}
    {s s' : σ} {es : List S.Done} (h : M.Run t (m >>= f) s es a s') :
    ∃ b s₁ es₁ es₂, M.Run t m s es₁ b s₁ ∧ M.Run t (f b) s₁ es₂ a s' := by
  generalize hm : m >>= f = m' at h
  induction h generalizing m with
  | ret a s =>
      cases m with
      | ret b =>
          refine ⟨b, s, [], [], .ret b s, ?_⟩
          rw [show f b = _ from hm]
          exact .ret a s
      | step p k => cases hm
  | @step p k' s s₁ s₂ r es a x hexec hdone hrest ih =>
      cases m with
      | ret b =>
          refine ⟨b, s, [], ⟨p, r⟩ :: es, .ret b s, ?_⟩
          rw [show f b = _ from hm]
          exact .step x hexec hdone hrest
      | step p k =>
          cases hm
          obtain ⟨b, s₃, es₁, es₂, hk, hf⟩ := ih rfl
          exact ⟨b, s₃, _, es₂, .step x hexec hdone hk, hf⟩
  | @again p k' s s₁ s₂ r es a x hexec hagain hrest ih =>
      cases m with
      | ret b =>
          refine ⟨b, s, [], ⟨p, r⟩ :: es, .ret b s, ?_⟩
          rw [show f b = _ from hm]
          exact .again x hexec hagain hrest
      | step p k =>
          cases hm
          obtain ⟨b, s₃, es₁, es₂, hk, hf⟩ := ih (m := .step p k) rfl
          exact ⟨b, s₃, _, es₂, .again x hexec hagain hk, hf⟩

/-- A run is one of any machine that can do what was done. -/
theorem Returns.of_exec {χ' : Type} {M : Machine S τ χ σ} {N : Machine S τ χ' σ} {t : τ}
    {P : S.Op → Prop} (hexec : ∀ x p s r s', P p → M.exec x t p s = some (r, s') →
      ∃ y, N.exec y t p s = some (r, s')) (hagain : ∀ p r, N.again p r = M.again p r)
    {m : Prog S α} (hm : m.Every P) {a : α} {s s' : σ} (h : M.Returns t m s a s') :
    N.Returns t m s a s' := by
  obtain ⟨es, h⟩ := h
  refine ⟨es, ?_⟩
  induction h with
  | ret a s => exact .ret a s
  | step x hx hdone _ ih =>
      obtain ⟨y, hy⟩ := hexec x _ _ _ _ hm.1 hx
      exact .step y hy ((hagain _ _).trans hdone) (ih (hm.2 _))
  | again x hx hmore _ ih =>
      obtain ⟨y, hy⟩ := hexec x _ _ _ _ hm.1 hx
      exact .again y hy ((hagain _ _).trans hmore) (ih hm)

/-- An environment that is asked less does nothing that the whole one could not do. -/
theorem Returns.of_under {χ' : Type} {M : Machine S τ χ σ} {f : χ' → S.Op → χ} {t : τ}
    {m : Prog S α} {a : α} {s s' : σ} (h : (M.under f).Returns t m s a s') :
    M.Returns t m s a s' := by
  refine Returns.of_exec (M := M.under f) (N := M) (P := fun _ => True) ?_ (fun _ _ => rfl)
    (Prog.every_of_forall (fun _ => trivial) m) h
  exact fun x p _ _ _ _ hexec => ⟨f x p, hexec⟩

/-- A call of the interface that runs alone is a run of the program linked in for it. -/
theorem returns_link_inr {M : Machine S τ χ σ} {N : Machine U τ χ σ'} {t : τ}
    {h : (p : T.Op) → Prog U (T.Res p)} {p : T.Op} {k : T.Res p → Prog (S.sum T) α} {a : α}
    {s s' : σ × σ'}
    (hreturns : (M.sum N).Returns t (Prog.link h (.step (S := S.sum T) (.inr p) k)) s a s') :
    ∃ r n, N.Returns t (h p) s.2 r n ∧ (M.sum N).Returns t ((k r).link h) (s.1, n) a s' := by
  obtain ⟨es, hrun⟩ := hreturns
  obtain ⟨r, s₁, es₁, es₂, hp, hk⟩ := run_bind hrun
  obtain ⟨es₃, -, hp, hsame⟩ := run_inr.mp hp
  refine ⟨r, s₁.2, ⟨es₃, hp⟩, es₂, ?_⟩
  rw [← hsame]
  exact hk

end Machine

theorem Prog.Every.map {P : S.Op → Prop} {m : Prog S κ} (f : κ → α) (h : m.Every P) :
    (m >>= fun a => .ret (f a)).Every P :=
  h.bind fun _ => trivial

/-- Where each program of the interface is short, so is what calls it. -/
theorem Prog.Short.link {h : (p : T.Op) → Prog U (T.Res p)} {P : (S.sum T).Op → Prop} {n : Nat}
    (hh : ∀ p, P (.inr p) → (h p).Short (n + 1)) {m : Prog (S.sum T) α} (hm : m.Every P) :
    ∀ {i : Nat}, m.Short i → (m.link h).Short (i * (n + 1)) := by
  induction m with
  | ret a => exact fun _ => trivial
  | step p k ih =>
      intro i hi
      cases i with
      | zero => exact hi.elim
      | succ i =>
          rw [Nat.succ_mul, Nat.add_comm]
          rcases p with p | p
          · rw [Nat.succ_add_eq_add_succ, Nat.add_succ]
            exact fun r => (ih r (hm.2 r) (hi r)).mono (Nat.le_add_left ..)
          · exact (hh p hm.1).inr.bind fun r => ih r (hm.2 r) (hi r)

variable {D : Levels S U O τ χ χ' σ σ'} {h : (p : S.Op) → Prog U (S.Res p)} {P : S.Op → Prop}

namespace Implements

/-- A program of the interface can go on where the primitive it performs can be performed, and
after that in any case. -/
structure Live (I : Implements D h P) : Prop where
  waiting : ∀ {a c t p q k}, D.rel a c → I.busy a c t p none (.step q k) →
    (∃ y r a', D.upper.exec y t p a = some (r, a') ∧ D.upper.again p r = false) →
    ∃ x r c', D.lower.exec x t q c = some (r, c') ∧ D.lower.again q r = false
  answered : ∀ {a c t p q k r}, D.rel a c → I.busy a c t p (some r) (.step q k) →
    ∃ x r' c', D.lower.exec x t q c = some (r', c') ∧ D.lower.again q r' = false

variable {I : Implements D h P} {f : κ → Prog S α} {g : κ → Prog U α}

/-- A thread that can get on above can get on below. -/
theorem Matches.moves (hI : I.Live) {pa : Pool S τ σ κ α} {pc : Pool U τ σ' κ α}
    (hm : Matches I pa pc) {t : τ} (hprog : ∃ mc, pc.prog t = some mc)
    (ht : (D.above f).Moves pa t) : (D.below g).Moves pc t := by
  obtain ⟨mc, hmc⟩ := hprog
  obtain ⟨id, c, ma, hc, hma, hnext⟩ := ht
  rw [hm.calls] at hc
  refine ⟨id, c, mc, hc, hmc, ?_⟩
  rintro q K rfl
  obtain ⟨ma', hma', hs⟩ := hm.thread t id c _ hc hmc
  rw [hma] at hma'
  cases hma'
  obtain ⟨p, k, ans, kq, -, rfl, hb, -⟩ := hs.step hm.rel
  cases ans with
  | none => exact hI.waiting hm.rel hb (hnext p k rfl)
  | some r => exact hI.answered hm.rel hb

/-- **A live implementation keeps the calls completing.** -/
theorem completes [DecidableEq τ] (hI : I.Live) {ok : List (Event O τ κ α) → τ → κ → Prop} {n : Nat}
    (hbody : ∀ tr t c, ok tr t c → g c = (f c).handle h)
    (hP : ∀ tr t c, ok tr t c → (f c).Every P)
    (hshort : ∀ tr t c, ok tr t c → (g c).Short n) {a : σ} {s : σ'} (hrel : D.rel a s)
    (hmoves : ∀ pa t, (D.above f).Reach (promise D.shown ok) a pa → pa.view.calls t ≠ none →
      ∃ u, (D.above f).Moves pa u)
    {pc : Pool U τ σ' κ α} (hreach : (D.below g).Reach (promise D.shown' ok) s pc) :
    (D.below g).Completes (n + 1) pc := by
  refine Sys.completes (fun v t c => hshort (seen D.shown' v.trace) t c) ?_ hreach
  intro pc t hreach ht
  obtain ⟨pa, hpa, hm⟩ := I.refines hbody hP hrel hreach
  obtain ⟨u, hu⟩ := hmoves pa t hpa (by rwa [hm.calls])
  have hcalls : pc.view.calls u ≠ none := by
    obtain ⟨id, c, -, hc, -⟩ := hu
    rw [← hm.calls, hc]
    exact Option.some_ne_none _
  obtain ⟨m, hmc, -⟩ := hreach.rest (Q := fun _ => True) (fun _ _ _ _ => trivial)
    (fun _ _ _ _ => trivial) u hcalls
  exact ⟨u, hm.moves hI ⟨m, hmc⟩ hu⟩

end Implements

/-! ### Walking through the programs -/

namespace Levels

/-- The primitive `p` has been answered by `r`; the rest changes nothing and returns that. -/
def Answered (D : Levels S U O τ χ χ' σ σ') (t : τ) {β : Type} (r : β) : Prog U β → Prop
  | .ret r' => r = r'
  | .step q k => ∀ a c, D.rel a c → (∃ x r' c', D.lower.exec x t q c = some (r', c')) ∧
      ∀ x r' c', D.lower.exec x t q c = some (r', c') →
        D.rel a c' ∧ D.shown' ⟨q, r'⟩ = none ∧ D.lower.again q r' = false ∧ D.Answered t r (k r')

/-- One step in which `p` is left to a later one, takes place, or is come to once more. -/
inductive Goes (D : Levels S U O τ χ χ' σ σ') (t : τ) (p : S.Op) (a : σ) (q : U.Op) (r : U.Res q)
    (c' : σ') (later : Prop) (ends : S.Res p → Prop) : Prop
  | later (hrel : D.rel a c') (hshown : D.shown' ⟨q, r⟩ = none)
      (hlater : D.lower.again q r = false → later)
  | now {y : χ} {v : S.Res p} {b : σ} (hagain : D.lower.again q r = false)
      (hexec : D.upper.exec y t p a = some (v, b)) (hagain' : D.upper.again p v = false)
      (hshown : D.shown ⟨p, v⟩ = D.shown' ⟨q, r⟩) (hrel : D.rel b c') (hends : ends v)
  | again {y : χ} {v : S.Res p} {b : σ} (hagain : D.lower.again q r = true)
      (hexec : D.upper.exec y t p a = some (v, b)) (hagain' : D.upper.again p v = true)
      (hshown : D.shown ⟨p, v⟩ = D.shown' ⟨q, r⟩) (hrel : D.rel b c')

/-- The primitive `p` is yet to take place, in a step that can be taken if `p` can. -/
def Waiting (D : Levels S U O τ χ χ' σ σ') (t : τ) (p : S.Op) : Prog U (S.Res p) → Prop
  | .ret _ => False
  | .step q k => ∀ a c, D.rel a c →
      ((∃ y r a', D.upper.exec y t p a = some (r, a') ∧ D.upper.again p r = false) →
        ∃ x r c', D.lower.exec x t q c = some (r, c') ∧ D.lower.again q r = false) ∧
      ∀ x r c', D.lower.exec x t q c = some (r, c') →
        D.Goes t p a q r c' (D.Waiting t p (k r)) fun r' => D.Answered t r' (k r)

/-- What a thread in the midst of the program of `p` is known to do. -/
def Midst (D : Levels S U O τ χ χ' σ σ') (t : τ) (p : S.Op) :
    Option (S.Res p) → Prog U (S.Res p) → Prop
  | none, m => D.Waiting t p m
  | some r, m => D.Answered t r m

/-- A step that tells the thread something it already counts on. -/
theorem Waiting.read [Nonempty χ'] {t : τ} {p : S.Op} {q : U.Op} {k : U.Res q → Prog U (S.Res p)}
    {r : U.Res q} (hexec : ∀ a c x, D.rel a c → D.lower.exec x t q c = some (r, c))
    (hagain : D.lower.again q r = false) (hshown : D.shown' ⟨q, r⟩ = none)
    (h : D.Waiting t p (k r)) : D.Waiting t p (.step q k) := by
  intro a c hrel
  refine ⟨?_, ?_⟩
  · rintro -
    obtain ⟨x⟩ := ‹Nonempty χ'›
    exact ⟨x, r, c, hexec a c x hrel, hagain⟩
  · intro x r' c' hx
    rw [hexec a c x hrel] at hx
    cases hx
    exact .later hrel hshown fun _ => h

/-- A primitive that both levels perform alike. -/
theorem Waiting.same {t : τ} {p : S.Op} {q : U.Op} {e : U.Res q → S.Res p}
    (hlower : ∀ a c x r c', D.rel a c → D.lower.exec x t q c = some (r, c') →
      ∃ y a', D.upper.exec y t p a = some (e r, a') ∧ D.rel a' c')
    (hupper : ∀ a c y r' a', D.rel a c → D.upper.exec y t p a = some (r', a') →
      ∃ x r c', D.lower.exec x t q c = some (r, c') ∧ e r = r')
    (hagain : ∀ r, D.upper.again p (e r) = D.lower.again q r)
    (hshown : ∀ r, D.shown ⟨p, e r⟩ = D.shown' ⟨q, r⟩) :
    D.Waiting t p (.step q fun r => .ret (e r)) := by
  intro a c hrel
  refine ⟨?_, ?_⟩
  · rintro ⟨y, r', a', hexec, hdone⟩
    obtain ⟨x, r, c', hx, rfl⟩ := hupper a c y r' a' hrel hexec
    exact ⟨x, r, c', hx, by rw [← hagain, hdone]⟩
  · intro x r c' hexec
    obtain ⟨y, a', hy, hrel'⟩ := hlower a c x r c' hrel hexec
    rcases hdone : D.lower.again q r with _ | _
    · exact .now hdone hy (by rw [hagain, hdone]) (hshown r) hrel' rfl
    · exact .again hdone hy (by rw [hagain, hdone]) (hshown r) hrel'

/-- Programs that have been walked through. -/
def implements (D : Levels S U O τ χ χ' σ σ') (hP : ∀ t p, P p → D.Waiting t p (h p)) :
    Implements D h P where
  busy _ _ t p := D.Midst t p
  start hp _ := hP _ _ hp
  finish := by
    intro _ _ t p ans r hb
    cases ans with
    | none => exact hb.elim
    | some r' => exact congrArg some hb
  step := by
    intro a c x t p ans q k r c' hrel hb hexec
    cases ans with
    | some r₀ =>
        obtain ⟨hrel', hshown, hag, hk⟩ := (hb a c hrel).2 x r c' hexec
        refine ⟨a, some r₀, ?_, hrel', ?_, fun _ _ _ _ _ hb => hb⟩
        · rw [hshown]
          exact .none _ _
        · rw [if_neg (Bool.eq_false_iff.mp hag)]
          exact hk
    | none =>
        cases (hb a c hrel).2 x r c' hexec with
        | later hrel' hshown hk =>
            refine ⟨a, none, ?_, hrel', ?_, fun _ _ _ _ _ hb => hb⟩
            · rw [hshown]
              exact .none _ _
            · split
              · exact hb
              · rename_i hag
                exact hk (Bool.eq_false_iff.mpr hag)
        | @now y r' a' hag hy hag' hshown hrel' hk =>
            refine ⟨a', some r', hshown ▸ .now y hy hag', hrel', ?_, fun _ _ _ _ _ hb => hb⟩
            rw [if_neg (Bool.eq_false_iff.mp hag)]
            exact hk
        | @again y r' a' hag hy hag' hshown hrel' =>
            refine ⟨a', none, hshown ▸ .again y hy hag', hrel', ?_, fun _ _ _ _ _ hb => hb⟩
            rw [if_pos hag]
            exact hb

theorem implements_live {hP : ∀ t p, P p → D.Waiting t p (h p)} :
    (D.implements hP).Live where
  waiting hrel hb := (hb _ _ hrel).1
  answered {a c t p q k r} hrel hb := by
    obtain ⟨⟨x, r', c', hexec⟩, hall⟩ := hb a c hrel
    exact ⟨x, r', c', hexec, (hall x r' c' hexec).2.2.1⟩

/-! ### Beside other primitives -/

section Beside

variable {ρ ρ' : Type} {L : Machine S τ χ σ} {L' : Machine S τ χ' σ}

/-- The levels of an interface that is used by a module with primitives of its own. -/
def beside (D : Levels T U O τ χ χ' ρ ρ') (L : Machine S τ χ σ) (L' : Machine S τ χ' σ) :
    Levels (S.sum T) (S.sum U) S τ χ χ' (σ × ρ) (σ × ρ') where
  upper := L.sum D.upper
  lower := L'.sum D.lower
  shown := own
  shown' := own
  rel a c := a.1 = c.1 ∧ D.rel a.2 c.2

variable {D : Levels T U O τ χ χ' ρ ρ'} {t : τ}

theorem Answered.beside {β : Type} {r : β} {m : Prog U β} (hm : D.Answered t r m) :
    (D.beside L L').Answered t r m.inr := by
  induction m with
  | ret r' => exact hm
  | step q k ih =>
      rintro ⟨s, a⟩ ⟨s', c⟩ ⟨hs, hrel⟩
      obtain ⟨⟨x, r', c', hexec⟩, hall⟩ := hm a c hrel
      refine ⟨⟨x, r', (s', c'), Option.map_eq_some_iff.mpr ⟨_, hexec, rfl⟩⟩, ?_⟩
      intro x r' c₁ hexec
      obtain ⟨⟨r'', c'⟩, hx, heq⟩ := Option.map_eq_some_iff.mp hexec
      cases heq
      obtain ⟨hrel', -, hagain, hk⟩ := hall x _ c' hx
      exact ⟨⟨hs, hrel'⟩, rfl, hagain, ih _ hk⟩

theorem Waiting.beside {p : T.Op} {m : Prog U (T.Res p)} (hm : D.Waiting t p m) :
    (D.beside L L').Waiting t (.inr p) m.inr := by
  induction m with
  | ret r => exact hm
  | step q k ih =>
      rintro ⟨s, a⟩ ⟨s', c⟩ ⟨rfl, hrel⟩
      obtain ⟨hlive, hall⟩ := hm a c hrel
      refine ⟨?_, ?_⟩
      · rintro ⟨y, r, a₁, hexec, hagain⟩
        obtain ⟨⟨r', a'⟩, hy, heq⟩ := Option.map_eq_some_iff.mp hexec
        cases heq
        obtain ⟨x, r', c', hx, hdone⟩ := hlive ⟨y, _, a', hy, hagain⟩
        exact ⟨x, r', (s, c'), Option.map_eq_some_iff.mpr ⟨_, hx, rfl⟩, hdone⟩
      · intro x r c₁ hexec
        obtain ⟨⟨r'', c'⟩, hx, heq⟩ := Option.map_eq_some_iff.mp hexec
        cases heq
        cases hall x _ c' hx with
        | later hrel' _ hk => exact .later ⟨rfl, hrel'⟩ rfl fun hagain => ih _ (hk hagain)
        | now hag hy hag' _ hrel' hk =>
            exact .now (b := (s, _)) hag (Option.map_eq_some_iff.mpr ⟨_, hy, rfl⟩) hag' rfl
              ⟨rfl, hrel'⟩ hk.beside
        | again hag hy hag' _ hrel' =>
            exact .again (b := (s, _)) hag (Option.map_eq_some_iff.mpr ⟨_, hy, rfl⟩) hag' rfl
              ⟨rfl, hrel'⟩

/-- Any primitive of the module's own, and those of the interface of which `P` holds. -/
def Uses (P : T.Op → Prop) : (S.sum T).Op → Prop
  | .inl _ => True
  | .inr p => P p

/-- Beside an interface that has been implemented a module performs its own primitives as before. -/
theorem waiting_beside {h : (p : T.Op) → Prog U (T.Res p)} {P : T.Op → Prop}
    (hlower : ∀ x t p s r s', L'.exec x t p s = some (r, s') → ∃ y, L.exec y t p s = some (r, s'))
    (hupper : ∀ y t p s r s', L.exec y t p s = some (r, s') → ∃ x, L'.exec x t p s = some (r, s'))
    (hagain : ∀ p r, L.again p r = L'.again p r) (hP : ∀ t p, P p → D.Waiting t p (h p)) (t : τ)
    (p : (S.sum T).Op) (hp : Uses P p) : (D.beside L L').Waiting t p (Prog.beside h p) := by
  rcases p with p | p
  · refine Waiting.same (D := D.beside L L') (p := .inl p) (q := .inl p) (e := id) ?_ ?_ (hagain p)
      fun _ => rfl
    · rintro ⟨s, a⟩ ⟨s', c⟩ x r c₁ ⟨rfl, hrel⟩ hexec
      obtain ⟨⟨r', s₁⟩, hx, heq⟩ := Option.map_eq_some_iff.mp hexec
      cases heq
      obtain ⟨y, hy⟩ := hlower x t p _ _ _ hx
      exact ⟨y, (s₁, a), Option.map_eq_some_iff.mpr ⟨_, hy, rfl⟩, rfl, hrel⟩
    · rintro ⟨s, a⟩ ⟨s', c⟩ y r a₁ ⟨rfl, hrel⟩ hexec
      obtain ⟨⟨r', s₁⟩, hy, heq⟩ := Option.map_eq_some_iff.mp hexec
      cases heq
      obtain ⟨x, hx⟩ := hupper y t p _ _ _ hy
      exact ⟨x, r', (s₁, c), Option.map_eq_some_iff.mpr ⟨_, hx, rfl⟩, rfl⟩
  · exact (hP t p hp).beside

/-- Where the programs of an interface take turns, so does what calls them. -/
theorem rounds_link {L : Machine (S.sum U) τ χ σ} {K : Turns L} {P : T.Op → Prop}
    {h : (p : T.Op) → Prog U (T.Res p)} (hown : ∀ p, K.own (.inl p))
    (hh : ∀ p, P p → K.Rounds false (h p).inr) {α : Type} {m : Prog (S.sum T) α}
    (hm : m.Every (Uses P)) : K.Rounds false (m.link h) := by
  induction m with
  | ret a => rfl
  | step p k ih =>
      rcases p with p | p
      · exact Or.inl ⟨hown p, fun r _ => ih r (hm.2 r)⟩
      · exact (hh p hm.1).bind fun r => ih r (hm.2 r)

end Beside

/-! ### In a larger state -/

/-- The interface of `D` is used by a module of `D'` that has an interface of its own.  There `up`
and `down` find the states of `D`, and the module comes to primitives of which `Q` holds. -/
structure Hosts {χ₁ χ₁' ρ ρ' : Type} (D' : Levels (S.sum (V.sum T)) (S.sum (V.sum U)) O τ χ₁ χ₁' σ σ')
    (D : Levels T U O' τ χ χ' ρ ρ') (up : σ → ρ) (down : σ' → ρ') (Q : U.Op → Prop) : Prop where
  rel : ∀ {a c}, D'.rel a c → D.rel (up a) (down c)
  lower : ∀ {x t q c r c'}, Q q → D'.lower.exec x t (.inr (.inr q)) c = some (r, c') →
    ∃ x', D.lower.exec x' t q (down c) = some (r, down c')
  lower' : ∀ {x t q c r n}, Q q → D.lower.exec x t q (down c) = some (r, n) →
    ∃ x' c', D'.lower.exec x' t (.inr (.inr q)) c = some (r, c')
  upper : ∀ {y t p a v a'}, D'.upper.exec y t (.inr (.inr p)) a = some (v, a') →
    ∃ y' n, D.upper.exec y' t p (up a) = some (v, n)
  later : ∀ {a x t q c r c'}, D'.rel a c → D'.lower.exec x t (.inr (.inr q)) c = some (r, c') →
    D.rel (up a) (down c') → D'.rel a c'
  now : ∀ {a x t q c r c' y p v n}, D'.rel a c →
    D'.lower.exec x t (.inr (.inr q)) c = some (r, c') →
    D.upper.exec y t p (up a) = some (v, n) → D.rel n (down c') →
    ∃ y' a', D'.upper.exec y' t (.inr (.inr p)) a = some (v, a') ∧ D'.rel a' c'
  again : ∀ p v, D'.upper.again (.inr (.inr p)) v = D.upper.again p v
  again' : ∀ q r, D'.lower.again (.inr (.inr q)) r = D.lower.again q r
  shown : ∀ p v, D'.shown ⟨.inr (.inr p), v⟩ = none
  shown' : ∀ q r, D'.shown' ⟨.inr (.inr q), r⟩ = none

namespace Hosts

variable {χ₁ χ₁' ρ ρ' : Type} {D' : Levels (S.sum (V.sum T)) (S.sum (V.sum U)) O τ χ₁ χ₁' σ σ'}
  {D : Levels T U O' τ χ χ' ρ ρ'} {up : σ → ρ} {down : σ' → ρ'} {Q : U.Op → Prop} {t : τ}

theorem answered (X : Hosts D' D up down Q) {β : Type} {r : β} {m : Prog U β} (hQ : m.Every Q)
    (hm : D.Answered t r m) : D'.Answered t r (m.inr : Prog (V.sum U) β).inr := by
  induction m with
  | ret r' => exact hm
  | step q k ih =>
      intro a c hrel
      obtain ⟨⟨x, r', n, hexec⟩, hall⟩ := hm (up a) (down c) (X.rel hrel)
      obtain ⟨x', c', hexec'⟩ := X.lower' hQ.1 hexec
      refine ⟨⟨x', r', c', hexec'⟩, ?_⟩
      intro x r' c' hexec
      obtain ⟨x', hx'⟩ := X.lower hQ.1 hexec
      obtain ⟨hrel', -, hagain, hk⟩ := hall x' r' _ hx'
      exact ⟨X.later hrel hexec hrel', X.shown' q r', (X.again' q r').trans hagain,
        ih r' (hQ.2 r') hk⟩

theorem waiting (X : Hosts D' D up down Q) {p : T.Op} {m : Prog U (T.Res p)} (hQ : m.Every Q)
    (hm : D.Waiting t p m) :
    D'.Waiting t (.inr (.inr p)) (m.inr : Prog (V.sum U) (T.Res p)).inr := by
  induction m with
  | ret r => exact hm
  | step q k ih =>
      intro a c hrel
      obtain ⟨hlive, hall⟩ := hm (up a) (down c) (X.rel hrel)
      refine ⟨?_, ?_⟩
      · rintro ⟨y, v, a', hexec, hagain⟩
        obtain ⟨y', n, hy'⟩ := X.upper hexec
        obtain ⟨x, r, n', hx, hdone⟩ := hlive ⟨y', v, n, hy', (X.again p v).symm.trans hagain⟩
        obtain ⟨x', c', hx'⟩ := X.lower' hQ.1 hx
        exact ⟨x', r, c', hx', (X.again' q r).trans hdone⟩
      · intro x r c' hexec
        obtain ⟨x', hx'⟩ := X.lower hQ.1 hexec
        have hag : D'.lower.again (.inr (.inr q)) r = D.lower.again q r := X.again' q r
        cases hall x' r _ hx' with
        | later hrel' _ hk =>
            exact .later (X.later hrel hexec hrel') (X.shown' q r)
              fun hagain => ih r (hQ.2 r) (hk (hag.symm.trans hagain))
        | @now y v n hdone hy hdone' _ hrel' hk =>
            obtain ⟨y', a', hy', hrel''⟩ := X.now hrel hexec hy hrel'
            exact .now (hag.trans hdone) hy' ((X.again p v).trans hdone')
              ((X.shown p v).trans (X.shown' q r).symm) hrel'' (X.answered (hQ.2 r) hk)
        | @again y v n hagain hy hagain' _ hrel' =>
            obtain ⟨y', a', hy', hrel''⟩ := X.now hrel hexec hy hrel'
            exact .again (hag.trans hagain) hy' ((X.again p v).trans hagain')
              ((X.shown p v).trans (X.shown' q r).symm) hrel''

end Hosts

end Levels

end Interleave
