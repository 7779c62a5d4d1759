/-
Programs as trees of atomic steps.

A `Prog` is a finite tree: each node performs one primitive operation of a
signature and continues according to the answer, each leaf is a returned value.
The tree fixes the order in which a function performs its operations and nothing
else, so one definition of a function has two readings.  `Machine.Run` executes it
alone from start to end; `Pool.lean` interleaves it with any number of others, one
node at a time.

Signatures compose.  `Sig.sum` puts two sets of primitives side by side, and
`Prog.link` replaces every call of the second set by the program that implements
it, which is how a function written over another module's calls is refined to the
steps those calls really take.
-/
import Mathlib.Logic.Function.Basic

namespace Interleave

/-- Primitive operations, each with the type of its answers. -/
structure Sig where
  Op : Type
  Res : Op → Type

/-- Two sets of primitives side by side. -/
abbrev Sig.sum (S T : Sig) : Sig where
  Op := S.Op ⊕ T.Op
  Res
    | .inl p => S.Res p
    | .inr p => T.Res p

/-- A primitive performed, with its answer. -/
abbrev Sig.Done (S : Sig) := (p : S.Op) × S.Res p

/-- A program whose atomic steps are the primitives of `S`. -/
inductive Prog (S : Sig) (α : Type) : Type
  | ret (a : α) : Prog S α
  | step (p : S.Op) (k : S.Res p → Prog S α) : Prog S α

namespace Prog

variable {S T U : Sig} {α β γ : Type}

/-- One primitive, answered by its result. -/
def op (p : S.Op) : Prog S (S.Res p) := .step p .ret

/-- Run the first program, then the one its result selects. -/
def bind : Prog S α → (α → Prog S β) → Prog S β
  | .ret a, f => f a
  | .step p k, f => .step p fun r => (k r).bind f

instance : Monad (Prog S) where
  pure := .ret
  bind := .bind

@[simp] theorem pure_eq (a : α) : (pure a : Prog S α) = .ret a := rfl

@[simp] theorem ret_bind (a : α) (f : α → Prog S β) : (Prog.ret a >>= f) = f a := rfl

@[simp] theorem step_bind (p : S.Op) (k : S.Res p → Prog S α) (f : α → Prog S β) :
    (Prog.step p k >>= f) = .step p fun r => k r >>= f := rfl

@[simp] theorem op_bind (p : S.Op) (f : S.Res p → Prog S β) :
    (Prog.op p >>= f) = .step p f := rfl

theorem bind_assoc (m : Prog S α) (f : α → Prog S β) (g : β → Prog S γ) :
    (m >>= f) >>= g = m >>= fun a => f a >>= g := by
  induction m with
  | ret a => rfl
  | step p k ih =>
      simp only [step_bind]
      congr 1
      funext r
      exact ih r

theorem bind_ret (m : Prog S α) : m.bind .ret = m := by
  induction m with
  | ret a => rfl
  | step p k ih =>
      show Prog.step _ _ = Prog.step _ _
      congr 1
      funext r
      exact ih r

/-- Every primitive that the program may come to satisfies `P`. -/
def Every (P : S.Op → Prop) : Prog S α → Prop
  | .ret _ => True
  | .step p k => P p ∧ ∀ r, (k r).Every P

theorem Every.bind {P : S.Op → Prop} {m : Prog S α} {f : α → Prog S β} (hm : m.Every P)
    (hf : ∀ a, (f a).Every P) : (m >>= f).Every P := by
  induction m with
  | ret a => exact hf a
  | step p k ih => exact ⟨hm.1, fun r => ih r (hm.2 r)⟩

theorem Every.mono {P Q : S.Op → Prop} (hPQ : ∀ p, P p → Q p) {m : Prog S α} (h : m.Every P) :
    m.Every Q := by
  induction m with
  | ret a => trivial
  | step p k ih => exact ⟨hPQ p h.1, fun r => ih r (h.2 r)⟩

theorem every_of_forall {P : S.Op → Prop} (hP : ∀ p, P p) (m : Prog S α) : m.Every P := by
  induction m with
  | ret a => trivial
  | step p k ih => exact ⟨hP p, ih⟩

theorem every_ite {P : S.Op → Prop} {b : Prop} [Decidable b] {m m' : Prog S α} (hm : m.Every P)
    (hm' : m'.Every P) : (if b then m else m').Every P := by
  split
  · exact hm
  · exact hm'

/-- Answered as in `es`, the program performs just these primitives and returns `a`. -/
def Yields (a : α) : Prog S α → List S.Done → Prop
  | .ret b, es => es = [] ∧ b = a
  | .step p k, es => ∃ r es', es = ⟨p, r⟩ :: es' ∧ (k r).Yields a es'

theorem yields_bind_iff {m : Prog S α} {f : α → Prog S β} {b : β} :
    ∀ {es : List S.Done}, (m >>= f).Yields b es ↔
      ∃ a es₁ es₂, es = es₁ ++ es₂ ∧ m.Yields a es₁ ∧ (f a).Yields b es₂ := by
  induction m with
  | ret a =>
      intro es
      refine ⟨fun h => ⟨a, [], es, rfl, ⟨rfl, rfl⟩, h⟩, ?_⟩
      rintro ⟨a', es₁, es₂, rfl, ⟨rfl, rfl⟩, h⟩
      exact h
  | step p k ih =>
      intro es
      refine ⟨?_, ?_⟩
      · rintro ⟨r, es', rfl, h⟩
        obtain ⟨a, es₁, es₂, rfl, hm, hf⟩ := (ih r).mp h
        exact ⟨a, ⟨p, r⟩ :: es₁, es₂, rfl, ⟨r, es₁, rfl, hm⟩, hf⟩
      · rintro ⟨a, _, es₂, rfl, ⟨r, es₁, rfl, hm⟩, hf⟩
        exact ⟨r, es₁ ++ es₂, rfl, (ih r).mpr ⟨a, es₁, es₂, rfl, hm, hf⟩⟩

/-- A program over the second summand, seen as one over both. -/
def inr : Prog T α → Prog (S.sum T) α
  | .ret a => .ret a
  | .step p k => .step (S := S.sum T) (.inr p) fun r => (k r).inr

@[simp] theorem inr_bind (m : Prog T α) (f : α → Prog T β) :
    ((m >>= f).inr : Prog (S.sum T) β) = m.inr >>= fun a => (f a).inr := by
  induction m with
  | ret a => rfl
  | step p k ih =>
      show Prog.step _ _ = Prog.step _ _
      congr 1
      funext r
      exact ih r

/-- Replace every primitive of the second summand by the program that implements it. -/
def link (h : (p : T.Op) → Prog U (T.Res p)) : Prog (S.sum T) α → Prog (S.sum U) α
  | .ret a => .ret a
  | .step (.inl p) k => .step (S := S.sum U) (.inl p) fun r => (k r).link h
  | .step (.inr p) k => (h p).inr.bind fun r => (k r).link h

theorem Every.inr {P : (S.sum T).Op → Prop} {m : Prog T α} (hm : m.Every fun p => P (.inr p)) :
    (m.inr : Prog (S.sum T) α).Every P := by
  induction m with
  | ret a => trivial
  | step p k ih => exact ⟨hm.1, fun r => ih r (hm.2 r)⟩

/-- What the linked programs come to, where `m` calls only those of which `P` holds. -/
theorem Every.link {P : (S.sum T).Op → Prop} {P' : (S.sum U).Op → Prop}
    {h : (p : T.Op) → Prog U (T.Res p)} {m : Prog (S.sum T) α} (hm : m.Every P)
    (hinl : ∀ p, P (.inl p) → P' (.inl p))
    (hinr : ∀ p, P (.inr p) → (h p).Every fun q => P' (.inr q)) : (m.link h).Every P' := by
  induction m with
  | ret a => trivial
  | step p k ih =>
      cases p with
      | inl p => exact ⟨hinl p hm.1, fun r => ih r (hm.2 r)⟩
      | inr p => exact (Every.inr (hinr p hm.1)).bind fun r => ih r (hm.2 r)

theorem link_bind (h : (p : T.Op) → Prog U (T.Res p)) (m : Prog (S.sum T) α)
    (f : α → Prog (S.sum T) β) : (m >>= f).link h = m.link h >>= fun a => (f a).link h := by
  induction m with
  | ret a => rfl
  | step p k ih =>
      cases p with
      | inl p =>
          show Prog.step _ _ = Prog.step _ _
          congr 1
          funext r
          exact ih r
      | inr p =>
          show ((h p).inr >>= fun r => (k r >>= f).link h) = ((h p).inr >>= _) >>= _
          rw [bind_assoc]
          congr 1
          funext r
          exact ih r

end Prog

/-- What each primitive does to the state, for each choice of the environment.
`exec` answers `none` where the primitive cannot be taken, and an answer for which
`again` holds leaves the caller at the same primitive, as a spin loop does. -/
structure Machine (S : Sig) (τ χ σ : Type) where
  exec : χ → τ → (p : S.Op) → σ → Option (S.Res p × σ)
  again : (p : S.Op) → S.Res p → Bool := fun _ _ => false

namespace Machine

variable {S T : Sig} {τ χ σ σ' α β : Type}

/-- Two machines side by side, each on its own part of the state. -/
def sum (M : Machine S τ χ σ) (N : Machine T τ χ σ') : Machine (S.sum T) τ χ (σ × σ') where
  exec x t
    | .inl p, s => (M.exec x t p s.1).map fun rs => (rs.1, rs.2, s.2)
    | .inr p, s => (N.exec x t p s.2).map fun rs => (rs.1, s.1, rs.2)
  again
    | .inl p, r => M.again p r
    | .inr p, r => N.again p r

/-- The machine in an environment that is asked less: `f` says what it answers to each primitive. -/
def under {χ' : Type} (M : Machine S τ χ σ) (f : χ' → S.Op → χ) : Machine S τ χ' σ where
  exec x t p := M.exec (f x p) t p
  again := M.again

/-- `M.Run t m s es a s'`: thread `t` runs `m` alone from `s`, which returns `a` in `s'`
after the primitives `es`. -/
inductive Run (M : Machine S τ χ σ) (t : τ) : Prog S α → σ → List S.Done → α → σ → Prop
  | ret (a : α) (s : σ) : Run M t (.ret a) s [] a s
  | step {p : S.Op} {k : S.Res p → Prog S α} {s s₁ s₂ : σ} {r : S.Res p} {es : List S.Done}
      {a : α} (x : χ) (hexec : M.exec x t p s = some (r, s₁)) (hdone : M.again p r = false)
      (hrest : Run M t (k r) s₁ es a s₂) : Run M t (.step p k) s (⟨p, r⟩ :: es) a s₂
  | again {p : S.Op} {k : S.Res p → Prog S α} {s s₁ s₂ : σ} {r : S.Res p} {es : List S.Done}
      {a : α} (x : χ) (hexec : M.exec x t p s = some (r, s₁)) (hagain : M.again p r = true)
      (hrest : Run M t (.step p k) s₁ es a s₂) : Run M t (.step p k) s (⟨p, r⟩ :: es) a s₂

variable {M : Machine S τ χ σ} {t : τ}

theorem run_ret_iff {a b : α} {s s' : σ} {es : List S.Done} :
    M.Run t (.ret a) s es b s' ↔ es = [] ∧ a = b ∧ s = s' := by
  refine ⟨?_, ?_⟩
  · intro h
    cases h
    exact ⟨rfl, rfl, rfl⟩
  · rintro ⟨rfl, rfl, rfl⟩
    exact .ret a s

/-- One node of a run, where the machine does not ask for the same primitive again. -/
theorem run_step_iff {p : S.Op} (hp : ∀ r, M.again p r = false) {k : S.Res p → Prog S α}
    {a : α} {s s' : σ} {es : List S.Done} :
    M.Run t (.step p k) s es a s' ↔
      ∃ x r s₁ es₁, M.exec x t p s = some (r, s₁) ∧ es = ⟨p, r⟩ :: es₁ ∧
        M.Run t (k r) s₁ es₁ a s' := by
  refine ⟨?_, ?_⟩
  · intro h
    cases h with
    | step x hexec _ hrest => exact ⟨x, _, _, _, hexec, rfl, hrest⟩
    | again x _ hagain _ =>
        rw [hp] at hagain
        exact Bool.noConfusion hagain
  · rintro ⟨x, r, s₁, es₁, hexec, rfl, hrest⟩
    exact .step x hexec (hp r) hrest

/-- A node whose primitive has one outcome. -/
theorem run_step_det [Nonempty χ] {p : S.Op} (hp : ∀ r, M.again p r = false)
    {k : S.Res p → Prog S α} {a : α} {s s' : σ} {es : List S.Done} {r : S.Res p} {s₁ : σ}
    (hexec : ∀ x, M.exec x t p s = some (r, s₁)) :
    M.Run t (.step p k) s es a s' ↔ ∃ es₁, es = ⟨p, r⟩ :: es₁ ∧ M.Run t (k r) s₁ es₁ a s' := by
  rw [run_step_iff hp]
  refine ⟨?_, ?_⟩
  · rintro ⟨x, r', s₂, es₁, hx, rfl, hrest⟩
    rw [hexec x] at hx
    cases hx
    exact ⟨es₁, rfl, hrest⟩
  · rintro ⟨es₁, rfl, hrest⟩
    obtain ⟨x⟩ := ‹Nonempty χ›
    exact ⟨x, r, s₁, es₁, hexec x, rfl, hrest⟩

/-- A node whose primitive cannot be performed. -/
theorem run_step_none {p : S.Op} {k : S.Res p → Prog S α} {a : α} {s s' : σ} {es : List S.Done}
    (hexec : ∀ x, M.exec x t p s = none) : ¬ M.Run t (.step p k) s es a s' := by
  intro h
  cases h with
  | step x hx _ _ =>
      rw [hexec x] at hx
      cases hx
  | again x hx _ _ =>
      rw [hexec x] at hx
      cases hx

/-- A run of a composition is a run of the first program and then one of the second. -/
theorem run_bind_iff (hM : ∀ p r, M.again p r = false) {m : Prog S α} {f : α → Prog S β}
    {b : β} {s s' : σ} {es : List S.Done} :
    M.Run t (m >>= f) s es b s' ↔
      ∃ a s₁ es₁ es₂, es = es₁ ++ es₂ ∧ M.Run t m s es₁ a s₁ ∧ M.Run t (f a) s₁ es₂ b s' := by
  induction m generalizing s es with
  | ret a =>
      refine ⟨fun h => ⟨a, s, [], es, rfl, .ret a s, h⟩, ?_⟩
      rintro ⟨a', s₁, es₁, es₂, rfl, h, hf⟩
      obtain ⟨rfl, rfl, rfl⟩ := run_ret_iff.mp h
      exact hf
  | step p k ih =>
      rw [Prog.step_bind, run_step_iff (hM p)]
      refine ⟨?_, ?_⟩
      · rintro ⟨x, r, s₁, es₁, hexec, rfl, hrest⟩
        obtain ⟨a, s₂, es₂, es₃, rfl, hk, hf⟩ := (ih r).mp hrest
        exact ⟨a, s₂, _, es₃, rfl, (run_step_iff (hM p)).mpr ⟨x, r, s₁, es₂, hexec, rfl, hk⟩, hf⟩
      · rintro ⟨a, s₂, es₂, es₃, rfl, hm, hf⟩
        obtain ⟨x, r, s₁, es₁, hexec, rfl, hk⟩ := (run_step_iff (hM p)).mp hm
        exact ⟨x, r, s₁, es₁ ++ es₃, hexec, rfl, (ih r).mpr ⟨a, s₂, es₁, es₃, rfl, hk, hf⟩⟩

/-- A run whose value is wrapped up at the end. -/
theorem run_map_iff (hM : ∀ p r, M.again p r = false) {m : Prog S α} {f : α → β} {b : β}
    {s s' : σ} {es : List S.Done} :
    M.Run t (m >>= fun a => .ret (f a)) s es b s' ↔ ∃ a, b = f a ∧ M.Run t m s es a s' := by
  rw [run_bind_iff hM]
  refine ⟨?_, ?_⟩
  · rintro ⟨a, s₁, es₁, es₂, rfl, hm, hret⟩
    obtain ⟨rfl, rfl, rfl⟩ := run_ret_iff.mp hret
    rw [List.append_nil]
    exact ⟨a, rfl, hm⟩
  · rintro ⟨a, rfl, hm⟩
    exact ⟨a, s', es, [], (List.append_nil es).symm, hm, .ret _ _⟩

/-- A program that comes only to primitives that can always be performed runs to its end. -/
theorem run_of_every (hM : ∀ p r, M.again p r = false) {P : S.Op → Prop}
    (hP : ∀ p, P p → ∀ s, ∃ x r s', M.exec x t p s = some (r, s')) {m : Prog S α}
    (hm : m.Every P) : ∀ s, ∃ es a s', M.Run t m s es a s' := by
  induction m with
  | ret a => exact fun s => ⟨[], a, s, .ret a s⟩
  | step p k ih =>
      intro s
      obtain ⟨x, r, s₁, hexec⟩ := hP p hm.1 s
      obtain ⟨es, a, s', hrest⟩ := ih r (hm.2 r) s₁
      exact ⟨⟨p, r⟩ :: es, a, s', .step x hexec (hM p r) hrest⟩

/-- A run not yet finished: `m` has come to `m'`. -/
inductive Steps (M : Machine S τ χ σ) (t : τ) (m : Prog S α) (s : σ) :
    List S.Done → Prog S α → σ → Prop
  | refl : Steps M t m s [] m s
  | snoc {p : S.Op} {k : S.Res p → Prog S α} {s₁ s₂ : σ} {r : S.Res p} {es : List S.Done} {x : χ}
      (h : Steps M t m s es (.step p k) s₁) (hexec : M.exec x t p s₁ = some (r, s₂))
      (hdone : M.again p r = false) : Steps M t m s (es ++ [⟨p, r⟩]) (k r) s₂

/-- What was run so far and a run of the rest make up a run. -/
theorem Steps.run {m m' : Prog S α} {s s₁ s' : σ} {es : List S.Done} (h : M.Steps t m s es m' s₁) :
    ∀ {es' : List S.Done} {a : α}, M.Run t m' s₁ es' a s' → M.Run t m s (es ++ es') a s' := by
  induction h with
  | refl =>
      intro es' a hrun
      exact hrun
  | snoc _ hexec hdone ih =>
      intro es' a hrun
      rw [List.append_assoc]
      exact ih (.step _ hexec hdone hrun)

/-- Run `m` alone on given choices of the environment. -/
def eval (M : Machine S τ χ σ) (t : τ) : List χ → Prog S α → σ → Option (List S.Done × α × σ)
  | [], .ret a, s => some ([], a, s)
  | x :: xs, .step p k, s =>
      (M.exec x t p s).bind fun rs =>
        (M.eval t xs (if M.again p rs.1 then .step p k else k rs.1) rs.2).map fun out =>
          (⟨p, rs.1⟩ :: out.1, out.2)
  | [], .step _ _, _ | _ :: _, .ret _, _ => none

theorem run_of_eval (xs : List χ) : ∀ {m : Prog S α} {s s' : σ} {es : List S.Done} {a : α},
    M.eval t xs m s = some (es, a, s') → M.Run t m s es a s' := by
  induction xs with
  | nil =>
      intro m s s' es a h
      cases m with
      | ret b =>
          cases h
          exact .ret a s
      | step p k => cases h
  | cons x xs ih =>
      intro m s s' es a h
      cases m with
      | ret b => cases h
      | step p k =>
          obtain ⟨⟨r, s₁⟩, hexec, hrest⟩ := Option.bind_eq_some_iff.mp h
          obtain ⟨⟨es₁, out⟩, heval, heq⟩ := Option.map_eq_some_iff.mp hrest
          cases heq
          by_cases hagain : M.again p r = true
          · rw [if_pos hagain] at heval
            exact .again x hexec hagain (ih heval)
          · rw [if_neg hagain] at heval
            exact .step x hexec (Bool.eq_false_iff.mpr hagain) (ih heval)

/-! ### Results -/

/-- `M.Returns t m s a s'`: run alone from `s`, `m` may return `a` in `s'`. -/
def Returns (M : Machine S τ χ σ) (t : τ) (m : Prog S α) (s : σ) (a : α) (s' : σ) : Prop :=
  ∃ es, M.Run t m s es a s'

theorem returns_ret_iff {a b : α} {s s' : σ} : M.Returns t (.ret a) s b s' ↔ a = b ∧ s = s' := by
  refine ⟨?_, ?_⟩
  · rintro ⟨es, h⟩
    exact (run_ret_iff.mp h).2
  · rintro ⟨rfl, rfl⟩
    exact ⟨[], .ret a s⟩

theorem returns_step_iff {p : S.Op} {k : S.Res p → Prog S α} {a : α} {s s' : σ}
    (hp : ∀ x r s₁, M.exec x t p s = some (r, s₁) → M.again p r = false) :
    M.Returns t (.step p k) s a s' ↔
      ∃ x r s₁, M.exec x t p s = some (r, s₁) ∧ M.Returns t (k r) s₁ a s' := by
  refine ⟨?_, ?_⟩
  · rintro ⟨es, h⟩
    cases h with
    | step x hexec _ hrest => exact ⟨x, _, _, hexec, _, hrest⟩
    | again x hexec hagain _ =>
        rw [hp x _ _ hexec] at hagain
        exact Bool.noConfusion hagain
  · rintro ⟨x, r, s₁, hexec, es, hrest⟩
    exact ⟨⟨p, r⟩ :: es, .step x hexec (hp x r s₁ hexec) hrest⟩

/-- A node whose primitive has one outcome. -/
theorem returns_step_det [Nonempty χ] {p : S.Op} {k : S.Res p → Prog S α} {a : α} {s s' : σ}
    {r : S.Res p} {s₁ : σ} (hexec : ∀ x, M.exec x t p s = some (r, s₁))
    (hp : M.again p r = false) :
    M.Returns t (.step p k) s a s' ↔ M.Returns t (k r) s₁ a s' := by
  rw [returns_step_iff]
  · refine ⟨?_, ?_⟩
    · rintro ⟨x, r', s₂, hx, hrest⟩
      rw [hexec x] at hx
      cases hx
      exact hrest
    · intro hrest
      obtain ⟨x⟩ := ‹Nonempty χ›
      exact ⟨x, r, s₁, hexec x, hrest⟩
  · intro x r' s₂ hx
    rw [hexec x] at hx
    cases hx
    exact hp

/-- The first program returns, then the one its result selects. -/
theorem Returns.bind {m : Prog S α} {f : α → Prog S β} {a : α} {b : β} {s s₁ s' : σ}
    (hM : ∀ p r, M.again p r = false) (hm : M.Returns t m s a s₁)
    (hf : M.Returns t (f a) s₁ b s') : M.Returns t (m >>= f) s b s' := by
  obtain ⟨es₁, hm⟩ := hm
  obtain ⟨es₂, hf⟩ := hf
  exact ⟨es₁ ++ es₂, (run_bind_iff hM).mpr ⟨a, s₁, es₁, es₂, rfl, hm, hf⟩⟩

/-- A node whose primitive cannot be performed. -/
theorem not_returns {p : S.Op} {k : S.Res p → Prog S α} {a : α} {s s' : σ}
    (hexec : ∀ x, M.exec x t p s = none) : ¬ M.Returns t (.step p k) s a s' := by
  rintro ⟨es, h⟩
  exact run_step_none hexec h

/-- Whatever state each of its steps is taken in, the program comes to a value that satisfies
`P`. -/
def Leads (M : Machine S τ χ σ) (t : τ) (P : α → Prop) : Prog S α → Prop
  | .ret a => P a
  | .step p k => ∀ x s r s', M.exec x t p s = some (r, s') → M.Leads t P (k r)

theorem Leads.mono {P P' : α → Prop} (hle : ∀ a, P a → P' a) {m : Prog S α}
    (h : M.Leads t P m) : M.Leads t P' m := by
  induction m with
  | ret a => exact hle a h
  | step p k ih => exact fun x s r s' hexec => ih r (h x s r s' hexec)

/-- Taking its first step in `s`, the program is bound to a value that satisfies `P`, whatever
happens between its further steps. -/
def Answers (M : Machine S τ χ σ) (t : τ) (s : σ) (P : α → Prop) : Prog S α → Prop
  | .ret a => P a
  | .step p k => ∀ x r s', M.exec x t p s = some (r, s') → M.Leads t P (k r)

/-- A first step that has one outcome. -/
theorem answers_step_det [Nonempty χ] {P : α → Prop} {p : S.Op} {k : S.Res p → Prog S α} {s s₁ : σ}
    {r : S.Res p} (hexec : ∀ x, M.exec x t p s = some (r, s₁)) :
    M.Answers t s P (.step p k) ↔ M.Leads t P (k r) := by
  refine ⟨?_, ?_⟩
  · intro h
    obtain ⟨x⟩ := ‹Nonempty χ›
    exact h x r s₁ (hexec x)
  · intro h x r' s' hx
    rw [hexec x] at hx
    cases hx
    exact h

/-! ### Runs of two machines side by side -/

variable {N : Machine T τ χ σ'}

/-- A program of the second machine runs as it does there, and leaves the first part alone. -/
theorem run_inr {m : Prog T α} {a : α} {s s' : σ × σ'} {es : List (S.sum T).Done} :
    (M.sum N).Run t m.inr s es a s' ↔
      ∃ es₁ : List T.Done, es = es₁.map (fun e => ⟨.inr e.1, e.2⟩) ∧ N.Run t m s.2 es₁ a s'.2 ∧
        s'.1 = s.1 := by
  refine ⟨?_, ?_⟩
  · intro h
    generalize hm : m.inr = m' at h
    induction h generalizing m with
    | ret b s =>
        cases m with
        | ret b' =>
            cases hm
            exact ⟨[], rfl, .ret _ _, rfl⟩
        | step p k => cases hm
    | @step p' k' s s₁ s₂ r es a x hexec hdone _ ih =>
        cases m with
        | ret b' => cases hm
        | step p k =>
            cases hm
            obtain ⟨⟨r', s₁'⟩, hexec', heq⟩ := Option.map_eq_some_iff.mp hexec
            cases heq
            obtain ⟨es₁, rfl, hrun, hsame⟩ := ih rfl
            exact ⟨⟨p, _⟩ :: es₁, rfl, .step x hexec' hdone hrun, hsame⟩
    | @again p' k' s s₁ s₂ r es a x hexec hagain _ ih =>
        cases m with
        | ret b' => cases hm
        | step p k =>
            cases hm
            obtain ⟨⟨r', s₁'⟩, hexec', heq⟩ := Option.map_eq_some_iff.mp hexec
            cases heq
            obtain ⟨es₁, rfl, hrun, hsame⟩ := ih (m := .step p k) rfl
            exact ⟨⟨p, _⟩ :: es₁, rfl, .again x hexec' hagain hrun, hsame⟩
  · obtain ⟨s₁, s₂⟩ := s
    obtain ⟨s₁', s₂'⟩ := s'
    rintro ⟨es₁, rfl, hrun, hsame⟩
    dsimp only at hrun hsame
    subst hsame
    induction hrun with
    | ret b s => exact .ret _ _
    | step x hexec hdone _ ih =>
        refine .step x ?_ hdone ih
        exact Option.map_eq_some_iff.mpr ⟨_, hexec, rfl⟩
    | again x hexec hagain _ ih =>
        refine .again x ?_ hagain ih
        exact Option.map_eq_some_iff.mpr ⟨_, hexec, rfl⟩

/-- A program of the second set does on a part of the state what it does there alone, if each of
its steps does, and leaves the whole as `R` says. -/
theorem run_inr_of_sim {χ' : Type} {M : Machine (S.sum T) τ χ σ} {N : Machine T τ χ' σ'}
    {f : σ → σ'} {R : σ → σ → Prop} {P : T.Op → Prop} (hrefl : ∀ s, R s s)
    (htrans : ∀ s₁ s₂ s₃, R s₁ s₂ → R s₂ s₃ → R s₁ s₃) (hM : ∀ p r, M.again p r = false)
    (hN : ∀ p r, N.again p r = false)
    (hstep : ∀ x p s r s₁, P p → M.exec x t (.inr p) s = some (r, s₁) →
      (∃ y, N.exec y t p (f s) = some (r, f s₁)) ∧ R s s₁)
    {m : Prog T α} (hm : m.Every P) {a : α} {s s' : σ} {es : List (S.sum T).Done}
    (h : M.Run t m.inr s es a s') :
    ∃ es₁ : List T.Done, es = es₁.map (fun e => ⟨.inr e.1, e.2⟩) ∧
      N.Run t m (f s) es₁ a (f s') ∧ R s s' := by
  induction m generalizing s es with
  | ret b =>
      obtain ⟨rfl, rfl, rfl⟩ := run_ret_iff.mp h
      exact ⟨[], rfl, .ret _ _, hrefl _⟩
  | step p k ih =>
      obtain ⟨x, r, s₁, es₁, hexec, rfl, hrest⟩ := (run_step_iff (hM (.inr p))).mp h
      obtain ⟨⟨y, hy⟩, hR⟩ := hstep x p s r s₁ hm.1 hexec
      obtain ⟨es₂, rfl, hrun, hR'⟩ := ih r (hm.2 r) hrest
      exact ⟨⟨p, r⟩ :: es₂, rfl, .step y hy (hN p r) hrun, htrans _ _ _ hR hR'⟩

/-- A step of the first machine that has one outcome. -/
theorem run_sum_inl [Nonempty χ] {p : S.Op} (hp : ∀ r, M.again p r = false)
    {k : S.Res p → Prog (S.sum T) α} {a : α} {s s' : σ × σ'} {es : List (S.sum T).Done}
    {r : S.Res p} {s₁ : σ} (hexec : ∀ x, M.exec x t p s.1 = some (r, s₁)) :
    (M.sum N).Run t (.step (.inl p) k) s es a s' ↔
      ∃ es₁, es = ⟨.inl p, r⟩ :: es₁ ∧ (M.sum N).Run t (k r) (s₁, s.2) es₁ a s' := by
  have hsum : ∀ x, (M.sum N).exec x t (.inl p) s = some (r, (s₁, s.2)) := by
    intro x
    show (M.exec x t p s.1).map _ = _
    rw [hexec]
    rfl
  exact run_step_det (M := M.sum N) (p := .inl p) hp hsum

/-- A step of the second machine that has one outcome. -/
theorem run_sum_inr [Nonempty χ] {p : T.Op} (hp : ∀ r, N.again p r = false)
    {k : T.Res p → Prog (S.sum T) α} {a : α} {s s' : σ × σ'} {es : List (S.sum T).Done}
    {r : T.Res p} {s₁ : σ'} (hexec : ∀ x, N.exec x t p s.2 = some (r, s₁)) :
    (M.sum N).Run t (.step (.inr p) k) s es a s' ↔
      ∃ es₁, es = ⟨.inr p, r⟩ :: es₁ ∧ (M.sum N).Run t (k r) (s.1, s₁) es₁ a s' := by
  have hsum : ∀ x, (M.sum N).exec x t (.inr p) s = some (r, (s.1, s₁)) := by
    intro x
    show (N.exec x t p s.2).map _ = _
    rw [hexec]
    rfl
  exact run_step_det (M := M.sum N) (p := .inr p) hp hsum

/-! ### Programs over an interface

A program that calls the primitives of an interface can be run before they are implemented: the
environment answers them.  Linked with an implementation it does nothing else, and the calls it
makes are served one after the other. -/

/-- The machine beside an interface of which nothing is known. -/
def withAny (M : Machine S τ χ σ) (T : Sig) :
    Machine (S.sum T) τ (χ × ((p : T.Op) → T.Res p)) σ where
  exec x t
    | .inl p, s => M.exec x.1 t p s
    | .inr p, s => some (x.2 p, s)
  again
    | .inl p, r => M.again p r
    | .inr _, _ => false

/-- A call of the interface may have any answer, if each of its primitives has one. -/
theorem run_withAny_inr [Nonempty χ] (answers : (p : T.Op) → T.Res p) {p : T.Op}
    {k : T.Res p → Prog (S.sum T) α} {a : α} {s s' : σ} {es : List (S.sum T).Done} :
    (M.withAny T).Run t (.step (.inr p) k) s es a s' ↔
      ∃ r es₁, es = ⟨.inr p, r⟩ :: es₁ ∧ (M.withAny T).Run t (k r) s es₁ a s' := by
  refine (run_step_iff (M := M.withAny T) (p := .inr p) fun _ => rfl).trans ⟨?_, ?_⟩
  · rintro ⟨x, r, s₁, es₁, hexec, rfl, hrest⟩
    cases hexec
    exact ⟨x.2 p, es₁, rfl, hrest⟩
  · classical
    rintro ⟨r, es₁, rfl, hrest⟩
    obtain ⟨x⟩ := ‹Nonempty χ›
    refine ⟨(x, Function.update answers p r), r, s, es₁, ?_, rfl, hrest⟩
    show some (Function.update answers p r p, s) = some (r, s)
    rw [Function.update_self]

/-- The primitives of the second set among some. -/
def seconds (es : List (S.sum T).Done) : List T.Done :=
  es.filterMap fun
    | ⟨.inl _, _⟩ => none
    | ⟨.inr p, r⟩ => some ⟨p, r⟩

theorem seconds_append (es es' : List (S.sum T).Done) :
    seconds (es ++ es') = seconds es ++ seconds es' :=
  List.filterMap_append

theorem seconds_map_append (es : List T.Done) (es' : List (S.sum T).Done) :
    seconds ((es.map fun e => (⟨.inr e.1, e.2⟩ : (S.sum T).Done)) ++ es') = es ++ seconds es' := by
  induction es with
  | nil => rfl
  | cons e es ih => exact congrArg (e :: ·) ih

@[simp] theorem seconds_map (es : List T.Done) :
    seconds (es.map fun e => (⟨.inr e.1, e.2⟩ : (S.sum T).Done)) = es := by
  have h := seconds_map_append (S := S) es []
  rwa [List.append_nil, show seconds ([] : List (S.sum T).Done) = [] from rfl,
    List.append_nil] at h

/-- `N` performs the programs `h` for some calls, one after the other. -/
inductive Serves {U : Sig} (N : Machine U τ χ σ) (t : τ) (h : (p : T.Op) → Prog U (T.Res p)) :
    List T.Done → σ → List U.Done → σ → Prop
  | nil (s : σ) : Serves N t h [] s [] s
  | cons {p : T.Op} {r : T.Res p} {calls : List T.Done} {s s₁ s₂ : σ} {es es₁ : List U.Done}
      (hrun : N.Run t (h p) s es r s₁) (hrest : Serves N t h calls s₁ es₁ s₂) :
      Serves N t h (⟨p, r⟩ :: calls) s (es ++ es₁) s₂

/-- What a linked program does is what the program does over its interface, and the calls it makes
there are served in their order. -/
theorem run_link [Nonempty χ] {U : Sig} {N : Machine U τ χ σ'} {h : (p : T.Op) → Prog U (T.Res p)}
    (hM : ∀ p r, M.again p r = false) (hN : ∀ p r, N.again p r = false)
    (answers : (p : T.Op) → T.Res p) {m : Prog (S.sum T) α} {a : α} {s s' : σ × σ'}
    {es : List (S.sum U).Done} (hrun : (M.sum N).Run t (m.link h) s es a s') :
    ∃ calls, (M.withAny T).Run t m s.1 calls a s'.1 ∧
      N.Serves t h (seconds calls) s.2 (seconds es) s'.2 := by
  have hsum : ∀ p r, (M.sum N).again p r = false := by
    rintro (p | p) r
    · exact hM p r
    · exact hN p r
  induction m generalizing s es with
  | ret b =>
      obtain ⟨rfl, rfl, rfl⟩ := run_ret_iff.mp hrun
      exact ⟨[], .ret _ _, .nil _⟩
  | step p k ih =>
      rcases p with p | p
      · obtain ⟨x, r, s₁, es₁, hexec, rfl, hrest⟩ := (run_step_iff (hsum (.inl p))).mp hrun
        obtain ⟨⟨r', s₁'⟩, hexec', heq⟩ := Option.map_eq_some_iff.mp hexec
        cases heq
        obtain ⟨calls, hcalls, hserves⟩ := ih r' hrest
        exact ⟨⟨.inl p, r'⟩ :: calls,
          .step (M := M.withAny T) (p := .inl p) (x, answers) hexec' (hM p r') hcalls, hserves⟩
      · obtain ⟨r, s₁, es₁, es₂, rfl, hp, hrest⟩ := (run_bind_iff hsum).mp hrun
        obtain ⟨es₃, rfl, hp, hsame⟩ := run_inr.mp hp
        obtain ⟨calls, hcalls, hserves⟩ := ih r hrest
        rw [hsame] at hcalls
        refine ⟨⟨.inr p, r⟩ :: calls, (run_withAny_inr answers).mpr ⟨r, calls, rfl, hcalls⟩, ?_⟩
        rw [seconds_map_append]
        exact .cons hp hserves

end Machine

end Interleave
