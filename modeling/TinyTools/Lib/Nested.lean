/-
Calls that are made while other calls are under way, by one thread.

A primitive may hand control to code of the client, which makes further calls before the
first one goes on.  What the client does is a `Script`, a finite tree: a call, for each
primitive of it that calls back the script that is run there, and for each answer the
script that follows.  Since a script is finite, running it is a program like any other:
each call is spelt out, with the scripts inserted where they are called.

`Machine.Meets` is total correctness of a program run alone.  A client may count on an
invariant, stated over the calls made so far, wherever it has control; `Script.meets` is
the rule that each call has to be shown to keep it only for itself, for any client code that
keeps it in between.
-/
import TinyTools.Lib.Prog

namespace Interleave

variable {S T : Sig} {τ χ σ κ α β : Type}

/-! ### Total correctness -/

namespace Machine

/-- Run alone from `s` after the primitives `L`, `m` comes to each primitive under `Pre`, where it
can be performed, and returns under `Post`. -/
def Meets (M : Machine S τ χ σ) (t : τ) (Pre : List S.Done → S.Op → σ → Prop)
    (Post : List S.Done → α → σ → Prop) : List S.Done → Prog S α → σ → Prop
  | L, .ret a, s => Post L a s
  | L, .step p k, s => Pre L p s ∧ (∃ x r s', M.exec x t p s = some (r, s')) ∧
      ∀ x r s', M.exec x t p s = some (r, s') → M.Meets t Pre Post (L ++ [⟨p, r⟩]) (k r) s'

variable {M : Machine S τ χ σ} {t : τ} {Pre : List S.Done → S.Op → σ → Prop}
  {Post : List S.Done → α → σ → Prop} {L : List S.Done} {s s' : σ}

/-- A primitive with one outcome. -/
theorem meets_step_det [Nonempty χ] {p : S.Op} {k : S.Res p → Prog S α} {r : S.Res p}
    (hexec : ∀ x, M.exec x t p s = some (r, s')) :
    M.Meets t Pre Post L (.step p k) s ↔
      Pre L p s ∧ M.Meets t Pre Post (L ++ [⟨p, r⟩]) (k r) s' := by
  obtain ⟨x⟩ := ‹Nonempty χ›
  refine ⟨?_, ?_⟩
  · rintro ⟨hpre, -, hrest⟩
    exact ⟨hpre, hrest x r s' (hexec x)⟩
  · rintro ⟨hpre, hrest⟩
    refine ⟨hpre, ⟨x, r, s', hexec x⟩, ?_⟩
    intro y r₁ s₁ hy
    rw [hexec y] at hy
    cases hy
    exact hrest

theorem Meets.bind {Mid : List S.Done → β → σ → Prop} {m : Prog S β} {f : β → Prog S α}
    (hm : M.Meets t Pre Mid L m s)
    (hf : ∀ L b s, Mid L b s → M.Meets t Pre Post L (f b) s) :
    M.Meets t Pre Post L (m.bind f) s := by
  induction m generalizing L s with
  | ret b => exact hf L b s hm
  | step p k ih =>
      obtain ⟨hpre, hcan, hrest⟩ := hm
      exact ⟨hpre, hcan, fun x r s' hexec => ih r (hrest x r s' hexec)⟩

/-- The program returns, and whenever it does it returns under `Post`. -/
theorem Meets.run (hM : ∀ p r, M.again p r = false) {m : Prog S α}
    (h : M.Meets t Pre Post L m s) :
    (∃ es a s', M.Run t m s es a s') ∧
      ∀ es a s', M.Run t m s es a s' → Post (L ++ es) a s' := by
  induction m generalizing L s with
  | ret b =>
      refine ⟨⟨[], b, s, .ret b s⟩, ?_⟩
      intro es a s' hrun
      obtain ⟨rfl, rfl, rfl⟩ := run_ret_iff.mp hrun
      rw [List.append_nil]
      exact h
  | step p k ih =>
      obtain ⟨-, ⟨x, r, s₁, hexec⟩, hrest⟩ := h
      obtain ⟨es, a, s', hrun⟩ := (ih r (hrest x r s₁ hexec)).1
      refine ⟨⟨_, a, s', .step x hexec (hM p r) hrun⟩, ?_⟩
      intro es a s' hrun
      obtain ⟨x, r, s₁, es₁, hexec, rfl, hafter⟩ := (run_step_iff (hM p)).mp hrun
      have hpost := (ih r (hrest x r s₁ hexec)).2 es₁ a s' hafter
      rwa [List.append_assoc] at hpost

/-- Wherever the program has come to, what is left of it meets the same conditions. -/
theorem Meets.steps {m m' : Prog S α} {es : List S.Done} (h : M.Meets t Pre Post L m s)
    (hsteps : M.Steps t m s es m' s') : M.Meets t Pre Post (L ++ es) m' s' := by
  induction hsteps with
  | refl =>
      rw [List.append_nil]
      exact h
  | @snoc p k s₁ s₂ r es x _ hexec _ ih =>
      rw [← List.append_assoc]
      exact ih.2.2 x r s₂ hexec

end Machine

/-! ### Scripts -/

/-- What a client notes of its calls: which one it makes, and what it returned, with whether client
code was called in its course. -/
inductive Mark (κ α : Type) : Type
  | enter (c : κ)
  | leave (c : κ) (a : α) (called : Bool)

abbrev markSig (κ α : Type) : Sig := ⟨Mark κ α, fun _ => Unit⟩

/-- Calls one after the other, with what is done when one of them calls back. -/
inductive Script (S : Sig) (κ α : Type) : Type
  | done
  | call (c : κ) (inner : S.Op → Script S κ α) (rest : α → Script S κ α)

/-- A program with the code spelt out that its primitives call back, and whether there was any. -/
def Prog.expand (back : S.Op → Bool) (inner : S.Op → Prog (T.sum S) Unit) :
    Bool → Prog S α → Prog (T.sum S) (α × Bool)
  | called, .ret a => .ret (a, called)
  | called, .step p k => .step (S := T.sum S) (.inr p) fun r =>
      if back p then (inner p).bind fun _ => (k r).expand back inner true
      else (k r).expand back inner called

/-- The program that makes the calls of a script, with marks around each. -/
def Script.prog (back : S.Op → Bool) (body : κ → Prog S α) :
    Script S κ α → Prog ((markSig κ α).sum S) Unit
  | .done => .ret ()
  | .call c inner rest =>
      .step (S := (markSig κ α).sum S) (.inl (.enter c)) fun _ =>
      ((body c).expand back (fun p => (inner p).prog back body) false).bind fun r =>
      .step (S := (markSig κ α).sum S) (.inl (.leave c r.1 r.2)) fun _ =>
      (rest r.1).prog back body

/-- The machine with marks, which do nothing. -/
def Machine.marked (M : Machine S τ χ σ) (κ α : Type) :
    Machine ((markSig κ α).sum S) τ χ σ where
  exec x t
    | .inl _, s => some ((), s)
    | .inr p, s => M.exec x t p s
  again
    | .inl _, _ => false
    | .inr p, r => M.again p r

theorem Machine.marked_again {M : Machine S τ χ σ} (hM : ∀ p r, M.again p r = false)
    (p : ((markSig κ α).sum S).Op) (r : ((markSig κ α).sum S).Res p) :
    (M.marked κ α).again p r = false := by
  rcases p with p | p
  · rfl
  · exact hM p r

/-- The calls made, in the order in which they were. -/
def entered (L : List ((markSig κ α).sum S).Done) : List κ :=
  L.filterMap fun
    | ⟨.inl (.enter c), _⟩ => some c
    | _ => none

@[simp] theorem entered_append (L L' : List ((markSig κ α).sum S).Done) :
    entered (L ++ L') = entered L ++ entered L' :=
  List.filterMap_append

theorem entered_enter (L : List ((markSig κ α).sum S).Done) (c : κ) :
    entered (L ++ [⟨.inl (.enter c), ()⟩]) = entered L ++ [c] :=
  entered_append ..

theorem entered_leave (L : List ((markSig κ α).sum S).Done) (c : κ) (a : α) (called : Bool) :
    entered (L ++ [⟨.inl (.leave c a called), ()⟩]) = entered L :=
  (entered_append ..).trans (List.append_nil _)

theorem entered_inr (L : List ((markSig κ α).sum S).Done) (p : S.Op) (r : S.Res p) :
    entered (L ++ [⟨.inr p, r⟩]) = entered L :=
  (entered_append ..).trans (List.append_nil _)

/-! ### The rule for nested calls -/

section Rule

/-- Under what a script comes to its primitives: the invariant holds of the calls made so far where
the client gets control, and what a call returns is as it should be. -/
def ScriptPre (back : S.Op → Bool) (Inv : List κ → σ → Prop) (Good : κ → α → Bool → Prop)
    (Pre : S.Op → σ → Prop) (L : List ((markSig κ α).sum S).Done) :
    ((markSig κ α).sum S).Op → σ → Prop
  | .inl (.enter _), s => Inv (entered L) s
  | .inl (.leave c a called), s => Inv (entered L) s ∧ Good c a called
  | .inr p, s => Pre p s ∧ (back p = true → Inv (entered L) s)

variable {M : Machine S τ χ σ} {t : τ} {back : S.Op → Bool} {body : κ → Prog S α}
  {Inv : List κ → σ → Prop} {Good : κ → α → Bool → Prop} {Pre : S.Op → σ → Prop}

/-- Client code that may count on the invariant, and keeps it. -/
def Minds (M : Machine S τ χ σ) (t : τ) (back : S.Op → Bool) (Inv : List κ → σ → Prop)
    (Good : κ → α → Bool → Prop) (Pre : S.Op → σ → Prop)
    (m : Prog ((markSig κ α).sum S) Unit) : Prop :=
  ∀ L s, Inv (entered L) s →
    (M.marked κ α).Meets t (ScriptPre back Inv Good Pre) (fun L _ s => Inv (entered L) s) L m s

/-- If each call keeps the invariant for any client code that does, every script does. -/
theorem Script.meets [Nonempty χ]
    (hbody : ∀ c inner, (∀ p, Minds M t back Inv Good Pre (inner p)) → ∀ L calls s, Inv calls s →
      entered L = calls ++ [c] →
      (M.marked κ α).Meets t (ScriptPre back Inv Good Pre)
        (fun L r s => Inv (entered L) s ∧ Good c r.1 r.2) L ((body c).expand back inner false) s)
    (b : Script S κ α) : Minds M t back Inv Good Pre (b.prog back body) := by
  induction b with
  | done => exact fun L s hinv => hinv
  | call c inner rest ihinner ihrest =>
      intro L s hinv
      refine (Machine.meets_step_det (fun _ => rfl)).mpr ⟨hinv, ?_⟩
      refine (hbody c _ ihinner _ (entered L) s hinv (entered_enter L c)).bind ?_
      rintro L r s ⟨hinv, hgood⟩
      refine (Machine.meets_step_det (fun _ => rfl)).mpr ⟨⟨hinv, hgood⟩, ?_⟩
      rw [← entered_leave L c r.1 r.2] at hinv
      exact ihrest r.1 _ s hinv

end Rule

end Interleave
