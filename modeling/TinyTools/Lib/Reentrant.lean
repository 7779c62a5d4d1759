/-
Client code with callbacks, in any number of threads.

`Lib/Nested.lean` has the calls of one thread with the code inserted that they call back.
Here every thread runs such a script.  Two things carry over to scripts from the functions
they call.  An implementation of an interface stays one below any script: a script is a
program of the interface like any other, provided that what calls back above is what
calls back below.  And functions with one critical section do not deadlock, however deep
they call each other, if they call back only outside it: then a thread that makes an inner
call does not have the lock.
-/
import TinyTools.Lib.Implement

namespace Interleave

variable {S T U O O' : Sig} {τ χ χ' σ σ' κ α β : Type}

/-! ### Programs that are spelt out -/

namespace Prog

/-- Where nothing calls back there is nothing to spell out. -/
theorem expand_bind {back : S.Op → Bool} {inner : S.Op → Prog (T.sum S) Unit} {m : Prog S β}
    (hm : m.Every fun p => back p = false) (f : β → Prog S α) (called : Bool) :
    (m.bind f).expand back inner called
      = (m.inr : Prog (T.sum S) β).bind fun b => (f b).expand back inner called := by
  induction m with
  | ret b => rfl
  | step p k ih =>
      show Prog.step _ _ = Prog.step _ _
      congr 1
      funext r
      rw [hm.1, if_neg Bool.false_ne_true]
      exact ih r (hm.2 r)

theorem Every.expand {P : (T.sum S).Op → Prop} {back : S.Op → Bool}
    {inner : S.Op → Prog (T.sum S) Unit} (hinner : ∀ p, (inner p).Every P) {m : Prog S α}
    (hm : m.Every fun p => P (.inr p)) : ∀ called, (m.expand back inner called).Every P := by
  induction m with
  | ret a => exact fun _ => trivial
  | step p k ih =>
      refine fun called => ⟨hm.1, fun r => every_ite ?_ (ih r (hm.2 r) called)⟩
      exact (hinner p).bind fun _ => ih r (hm.2 r) true

/-- On no path the program calls back more than once. -/
def Once (back : S.Op → Bool) : Prog S α → Prop
  | .ret _ => True
  | .step p k => if back p then ∀ r, (k r).Every fun q => back q = false else ∀ r, (k r).Once back

/-- What precedes the callback does not call back. -/
theorem Once.bind {back : S.Op → Bool} {m : Prog S β} {f : β → Prog S α}
    (hm : m.Every fun p => back p = false) (hf : ∀ b, (f b).Once back) : (m.bind f).Once back := by
  induction m with
  | ret b => exact hf b
  | step p k ih =>
      show if back p then _ else _
      rw [hm.1, if_neg Bool.false_ne_true]
      exact fun r => ih r (hm.2 r)

/-- A program that does not call back is as short as before. -/
theorem Short.expand_of_every {back : S.Op → Bool} {inner : S.Op → Prog (T.sum S) Unit} {m : Prog S α}
    (hm : m.Every fun p => back p = false) :
    ∀ {i : Nat} {called : Bool}, m.Short i → (m.expand back inner called).Short i := by
  induction m with
  | ret a => exact fun _ => trivial
  | step p k ih =>
      intro i called h
      cases i with
      | zero => exact h.elim
      | succ i =>
          intro r
          show (if back p then _ else _ : Prog (T.sum S) (α × Bool)).Short i
          rw [hm.1, if_neg Bool.false_ne_true]
          exact ih r (hm.2 r) (h r)

theorem Short.expand {back : S.Op → Bool} {inner : S.Op → Prog (T.sum S) Unit} {j : Nat}
    (hinner : ∀ p, (inner p).Short j) {m : Prog S α} (hm : m.Once back) :
    ∀ {i : Nat} {called : Bool}, m.Short i → (m.expand back inner called).Short (i + j) := by
  induction m with
  | ret a => exact fun _ => trivial
  | step p k ih =>
      intro i called h
      cases i with
      | zero => exact h.elim
      | succ i =>
          rw [Once] at hm
          rw [Nat.succ_add]
          intro r
          show (if back p then _ else _ : Prog (T.sum S) (α × Bool)).Short (i + j)
          split
          · rw [if_pos ‹_›] at hm
            rw [Nat.add_comm]
            exact (hinner p).bind fun _ => (h r).expand_of_every (hm r)
          · rw [if_neg ‹_›] at hm
            exact ih r (hm r) (h r)

end Prog

/-- What calls back at the upper level is one primitive of the lower one, which calls back; `g` says
which.  Nothing else does. -/
structure Backs (h : (p : S.Op) → Prog U (S.Res p)) (g : S.Op → U.Op) (back : S.Op → Bool)
    (back' : U.Op → Bool) : Prop where
  calls : ∀ p, back p = true → back' (g p) = true ∧
    ∃ e : U.Res (g p) → S.Res p, h p = .step (g p) fun r => .ret (e r)
  quiet : ∀ p, back p = false → (h p).Every fun q => back' q = false

variable {h : (p : S.Op) → Prog U (S.Res p)} {g : S.Op → U.Op} {back : S.Op → Bool}
  {back' : U.Op → Bool}

/-- Code is spelt out before the programs of the interface are put in or after that. -/
theorem Backs.expand (hb : Backs h g back back') {inner : S.Op → Prog (T.sum S) Unit}
    {inner' : U.Op → Prog (T.sum U) Unit} (hinner : ∀ p, inner' (g p) = (inner p).link h)
    (m : Prog S α) : ∀ called,
      (m.handle h).expand back' inner' called = (m.expand back inner called).link h := by
  induction m with
  | ret a => exact fun _ => rfl
  | step p k ih =>
      intro called
      show ((h p).bind fun r => (k r).handle h).expand back' inner' called
        = (h p).inr.bind fun r => Prog.link h (if back p then _ else _)
      cases hp : back p with
      | false =>
          rw [Prog.expand_bind (hb.quiet p hp)]
          congr 1
          funext r
          exact ih r called
      | true =>
          obtain ⟨hg, e, he⟩ := hb.calls p hp
          rw [he]
          show Prog.step _ _ = Prog.step _ _
          congr 1
          funext r
          rw [hg, if_pos rfl, hinner]
          refine Eq.trans ?_ (Prog.link_bind h (inner p) _).symm
          show Prog.bind _ _ = Prog.bind _ _
          congr 1
          funext _
          exact ih _ true

/-! ### Scripts -/

namespace Script

/-- What a client of the lower level does, as a client of the upper one. -/
def via (g : S.Op → U.Op) : Script U κ α → Script S κ α
  | .done => .done
  | .call c inner rest => .call c (fun p => (inner (g p)).via g) fun a => (rest a).via g

/-- Every call of the script is one of which `P` holds. -/
def All (P : κ → Prop) : Script S κ α → Prop
  | .done => True
  | .call c inner rest => P c ∧ (∀ p, (inner p).All P) ∧ ∀ a, (rest a).All P

/-- Whatever the calls answer, there are at most `n`, where each calls back no more than once. -/
def AtMost : Script S κ α → Nat → Prop
  | .done, _ => True
  | .call _ _ _, 0 => False
  | .call _ inner rest, n + 1 => ∃ i j, i + j = n ∧ (∀ p, (inner p).AtMost i) ∧ ∀ a, (rest a).AtMost j

variable {P : κ → Prop}

theorem All.via {b : Script U κ α} (hb : b.All P) : (b.via g).All P := by
  induction b with
  | done => trivial
  | call c inner rest ihinner ihrest =>
      exact ⟨hb.1, fun p => ihinner (g p) (hb.2.1 (g p)), fun a => ihrest a (hb.2.2 a)⟩

/-- **A script below is the same script above**, with the programs of the interface put in. -/
theorem prog_via (hb : Backs h g back back') {body : κ → Prog S α} {body' : κ → Prog U α}
    (hbody : ∀ c, body' c = (body c).handle h) (b : Script U κ α) :
    b.prog back' body' = ((b.via g).prog back body).link h := by
  induction b with
  | done => rfl
  | call c inner rest ihinner ihrest =>
      show Prog.step _ _ = Prog.step _ _
      congr 1
      funext _
      rw [hbody, hb.expand (fun p => ihinner (g p))]
      refine Eq.trans ?_ (Prog.link_bind h _ _).symm
      show Prog.bind _ _ = Prog.bind _ _
      congr 1
      funext r
      show Prog.step _ _ = Prog.step _ _
      congr 1
      funext _
      exact ihrest r.1

/-- What a script comes to its calls come to. -/
theorem All.every {Q : ((markSig κ α).sum S).Op → Prop} {body : κ → Prog S α}
    (hmark : ∀ m, Q (.inl m)) (hbody : ∀ c, P c → (body c).Every fun p => Q (.inr p))
    {b : Script S κ α} (hb : b.All P) : (b.prog back body).Every Q := by
  induction b with
  | done => trivial
  | call c inner rest ihinner ihrest =>
      refine ⟨hmark _, fun _ => Prog.Every.bind ?_ fun r => ⟨hmark _, fun _ => ihrest _ (hb.2.2 _)⟩⟩
      exact Prog.Every.expand (fun p => ihinner p (hb.2.1 p)) (hbody c hb.1) false

/-- Scripts are short if they make few calls of short functions. -/
theorem All.short {body : κ → Prog S α} {i : Nat}
    (hbody : ∀ c, P c → (body c).Once back ∧ (body c).Short i) {b : Script S κ α} (hb : b.All P) :
    ∀ {n : Nat}, b.AtMost n → (b.prog back body).Short (n * (i + 2)) := by
  induction b with
  | done => exact fun _ => trivial
  | call c inner rest ihinner ihrest =>
      intro n hn
      cases n with
      | zero => exact hn.elim
      | succ n =>
          obtain ⟨j, k, rfl, hinner, hrest⟩ := hn
          obtain ⟨honce, hshort⟩ := hbody c hb.1
          have hexpand : ((body c).expand back (fun p => (inner p).prog back body) false).Short
              (i + j * (i + 2)) :=
            Prog.Short.expand (fun p => ihinner p (hb.2.1 p) (hinner p)) honce hshort
          have hleave : ∀ r : α × Bool, (Prog.step (S := (markSig κ α).sum S) (.inl (.leave c r.1 r.2))
              fun _ => (rest r.1).prog back body).Short (k * (i + 2) + 1) :=
            fun r _ => ihrest r.1 (hb.2.2 r.1) (hrest r.1)
          have hsum : (j + k + 1) * (i + 2) = i + j * (i + 2) + (k * (i + 2) + 1) + 1 := by
            rw [Nat.add_mul, Nat.add_mul, Nat.one_mul]
            omega
          rw [hsum]
          exact fun _ => hexpand.bind hleave

end Script

/-! ### Marks beside an implementation -/

/-- Marks, and of the rest what `w` shows. -/
def heard (w : Showing S O) : Showing ((markSig κ α).sum S) ((markSig κ α).sum O)
  | ⟨.inl m, r⟩ => some ⟨.inl m, r⟩
  | ⟨.inr p, r⟩ => (w ⟨p, r⟩).map fun d => ⟨.inr d.1, d.2⟩

namespace Levels

/-- The levels below scripts, where `w` is what is shown of what was shown. -/
def marked (D : Levels S U O τ χ χ' σ σ') (κ α : Type) (w : Showing O O') :
    Levels ((markSig κ α).sum S) ((markSig κ α).sum U) ((markSig κ α).sum O') τ χ χ' σ σ' where
  upper := D.upper.marked κ α
  lower := D.lower.marked κ α
  shown := heard fun d => (D.shown d).bind w
  shown' := heard fun d => (D.shown' d).bind w
  rel := D.rel

variable {D : Levels S U O τ χ χ' σ σ'} {w : Showing O O'} {t : τ}

theorem Answered.marked {r : β} {m : Prog U β} (hm : D.Answered t r m) :
    (D.marked κ α w).Answered t r m.inr := by
  induction m with
  | ret r' => exact hm
  | step q k ih =>
      intro a c hrel
      obtain ⟨hcan, hall⟩ := hm a c hrel
      refine ⟨hcan, fun x r' c' hexec => ?_⟩
      obtain ⟨hrel', hshown, hagain, hk⟩ := hall x r' c' hexec
      refine ⟨hrel', ?_, hagain, ih r' hk⟩
      show ((D.shown' ⟨q, r'⟩).bind w).map _ = none
      rw [hshown]
      rfl

theorem Waiting.marked {p : S.Op} {m : Prog U (S.Res p)} (hm : D.Waiting t p m) :
    (D.marked κ α w).Waiting t (.inr p) m.inr := by
  induction m with
  | ret r => exact hm
  | step q k ih =>
      intro a c hrel
      obtain ⟨hlive, hall⟩ := hm a c hrel
      refine ⟨hlive, fun x r c' hexec => ?_⟩
      have hheard : ∀ v, D.shown ⟨p, v⟩ = D.shown' ⟨q, r⟩ →
          (D.marked κ α w).shown ⟨.inr p, v⟩ = (D.marked κ α w).shown' ⟨.inr q, r⟩ := by
        intro v hv
        show ((D.shown ⟨p, v⟩).bind w).map _ = ((D.shown' ⟨q, r⟩).bind w).map _
        rw [hv]
      cases hall x r c' hexec with
      | later hrel' hshown hk =>
          refine .later hrel' ?_ fun hagain => ih r (hk hagain)
          show ((D.shown' ⟨q, r⟩).bind w).map _ = none
          rw [hshown]
          rfl
      | now hag hy hag' hshown hrel' hk => exact .now hag hy hag' (hheard _ hshown) hrel' hk.marked
      | again hag hy hag' hshown hrel' => exact .again hag hy hag' (hheard _ hshown) hrel'

/-- Programs that have been walked through serve scripts as well. -/
theorem waiting_marked [Nonempty χ] [Nonempty χ'] {P : S.Op → Prop}
    (hP : ∀ t p, P p → D.Waiting t p (h p)) (t : τ) (p : ((markSig κ α).sum S).Op) (hp : Uses P p) :
    (D.marked κ α w).Waiting t p (Prog.beside h p) := by
  rcases p with m | p
  · obtain ⟨x⟩ := ‹Nonempty χ›
    obtain ⟨x'⟩ := ‹Nonempty χ'›
    refine Waiting.same (D := D.marked κ α w) (p := .inl m) (q := .inl m) (e := id) ?_ ?_
      (fun _ => rfl) fun _ => rfl
    · rintro a c _ r c' hrel hexec
      cases hexec
      exact ⟨x, a, rfl, hrel⟩
    · rintro a c _ r' a' _ hexec
      cases hexec
      exact ⟨x', (), c, rfl, rfl⟩
  · exact (hP t p hp).marked

end Levels

/-! ### Scripts take turns -/

/-- A lock below scripts. -/
def Turns.marked [Nonempty χ] {M : Machine S τ χ σ} (K : Turns M) (κ α : Type) :
    Turns (M.marked κ α) where
  holder := K.holder
  stable := K.stable
  own
    | .inl _ => True
    | .inr p => K.own p
  take
    | .inl _ => False
    | .inr p => K.take p
  give
    | .inl _ => False
    | .inr p => K.give p
  ans
    | .inl _, _ => True
    | .inr p, r => K.ans p r
  sound := by
    rintro x t (m | p) s r s' hp hs hexec
    · cases hexec
      exact ⟨trivial, hs, rfl⟩
    · exact K.sound hp hs hexec
  holder_own := by
    rintro x t (m | p) s r s' hp hs hexec
    · cases hexec
      rfl
    · exact K.holder_own hp hs hexec
  holder_take := by
    rintro x t (m | p) s r s' hp hexec
    · exact hp.elim
    · exact K.holder_take hp hexec
  holder_give := by
    rintro x t (m | p) s r s' hp hexec hheld
    · exact hp.elim
    · exact K.holder_give hp hexec hheld
  can := by
    rintro t (m | p) s hs hp
    · obtain ⟨x⟩ := ‹Nonempty χ›
      exact ⟨x, (), s, rfl⟩
    · exact K.can hs hp

namespace Locking

variable {M : Machine S τ χ σ}

/-- The lock of functions with critical sections, none of whose primitives waits for anything else. -/
def turns (K : Locking M) (hcan : ∀ {t p s}, K.stable s →
    K.kind p = .inside ∨ (K.kind p = .acquire ∧ K.holder s = none) ∨
      (K.kind p = .release ∧ K.holder s = some t) → ∃ x r s', M.exec x t p s = some (r, s')) :
    Turns M where
  holder := K.holder
  stable := K.stable
  own p := K.kind p = .free ∨ K.kind p = .inside
  take p := K.kind p = .acquire
  give p := K.kind p = .release
  ans := K.ans
  sound := by
    intro x t p s r s' hp hs hexec
    refine K.sound ?_ hs hexec
    intro hnever
    rw [hnever] at hp
    simp at hp
  holder_own := by
    rintro x t p s r s' (hp | hp) hs hexec
    · obtain ⟨_, -, -, hall⟩ := K.free (t := t) hp
      rw [(hall s hs).2 x r s' hexec]
    · exact K.inside hp hexec
  holder_take := K.acquire
  holder_give := K.release
  can := by
    rintro t p s hs ((hp | hp) | hp)
    · obtain ⟨r, -, -, hall⟩ := K.free (t := t) hp
      obtain ⟨x, hx⟩ := (hall s hs).1
      exact ⟨x, r, s, hx⟩
    · exact hcan hs (Or.inl hp)
    · exact hcan hs (Or.inr hp)

variable [Nonempty χ] {K : Locking M}
  {hcan : ∀ {t p s}, K.stable s → K.kind p = .inside ∨ (K.kind p = .acquire ∧ K.holder s = none) ∨
    (K.kind p = .release ∧ K.holder s = some t) → ∃ x r s', M.exec x t p s = some (r, s')}

/-- A function that calls back outside its section only takes turns, if what it calls back does. -/
theorem Shape.rounds (hback : ∀ p, back p = true → K.kind p = .free)
    {inner : S.Op → Prog ((markSig κ β).sum S) Unit}
    (hinner : ∀ p, ((K.turns hcan).marked κ β).Rounds false (inner p)) {m : Prog S α} :
    ∀ {ph : Phase}, K.Shape ph m → ∀ called, ((K.turns hcan).marked κ β).Rounds
      (decide (ph = .inside)) (m.expand back inner called) := by
  induction m with
  | ret a =>
      intro ph hm called
      exact decide_eq_false hm
  | step p k ih =>
      intro ph hm called
      obtain ⟨ph', hnext, hk⟩ := hm
      have hkeep : ph' ≠ .inside → ∀ r, K.ans p r →
          ((K.turns hcan).marked κ β).Rounds false
            (if back p then (inner p).bind fun _ => (k r).expand back inner true
              else (k r).expand back inner called) := by
        intro hph r hr
        have hrest : ∀ called, ((K.turns hcan).marked κ β).Rounds false
            ((k r).expand back inner called) := by
          intro called
          have hrounds := ih r (hk r hr) called
          rwa [decide_eq_false hph] at hrounds
        split
        · exact (hinner p).bind fun _ => hrest true
        · exact hrest called
      -- on the way into a section, in it and out of it nothing calls back
      have hquiet : K.kind p ≠ .free → ∀ r, K.ans p r →
          ((K.turns hcan).marked κ β).Rounds (decide (ph' = .inside))
            (if back p then (inner p).bind fun _ => (k r).expand back inner true
              else (k r).expand back inner called) := by
        intro hp r hr
        rw [if_neg fun hp' => hp (hback p hp')]
        exact ih r (hk r hr) called
      cases ph with
      | before =>
          rcases Phase.next_before hnext with ⟨hp, rfl⟩ | ⟨hp, rfl⟩
          · exact Or.inl ⟨Or.inl hp, hkeep nofun⟩
          · exact Or.inr (Or.inl ⟨rfl, hp, hquiet (by rw [hp]; decide)⟩)
      | inside =>
          rcases Phase.next_inside hnext with ⟨hp, rfl⟩ | ⟨hp, rfl⟩
          · exact Or.inl ⟨Or.inr hp, hquiet (by rw [hp]; decide)⟩
          · exact Or.inr (Or.inr ⟨rfl, hp, hquiet (by rw [hp]; decide)⟩)
      | after =>
          obtain ⟨hp, rfl⟩ := Phase.next_after hnext
          exact Or.inl ⟨Or.inl hp, hkeep nofun⟩

/-- **Scripts do not deadlock**: each call of a script takes turns. -/
theorem rounds_prog {back : S.Op → Bool} (hback : ∀ p, back p = true → K.kind p = .free)
    {body : κ → Prog S α} {P : κ → Prop} (hshape : ∀ c, P c → K.Shape .before (body c))
    {b : Script S κ α} (hb : b.All P) :
    ((K.turns hcan).marked κ α).Rounds false (b.prog back body) := by
  induction b with
  | done => rfl
  | call c inner rest ihinner ihrest =>
      refine Or.inl ⟨trivial, fun _ _ => Turns.Rounds.bind (fun r => ?_) ?_⟩
      · exact Or.inl ⟨trivial, fun _ _ => ihrest r.1 (hb.2.2 r.1)⟩
      · exact (hshape c hb.1).rounds hback (fun p => ihinner p (hb.2.1 p)) false

end Locking

end Interleave
