/-
Compare-exchange loses no update.

A call of `tt_atomic_compare_exchange` is given, in an object of its own, the value it
wants to replace.  Its builtin exchanges exactly when the atomic holds that value, so
the exchanges of a trace hand the atomic on: each one found what the one before it had
left, however long ago the call had been given it.  A call that is about to return has
what the atomic held at its builtin in its object, whether it exchanged or not.

That leaves one way to exchange a value twice, which is that it came back in between.
If it could not, only one of the calls that were given it succeeds: of calls that all
start from one value, one is elected.
-/
import TinyTools.Proofs.Atomic
import TinyTools.Lib.Handover
import Mathlib.Data.Fintype.Basic

namespace TinyTools

open Interleave

namespace AtomicCall

variable {A E : Type}

/-- The object of a compare-exchange. -/
def expected : AtomicCall A E → Option E
  | .compareExchange _ expected _ _ => expected
  | .load _ _ | .store _ _ _ | .add _ _ _ | .sub _ _ _ => none

/-- The call does not write `a`, unless by a compare-exchange. -/
def Spares (a : A) : AtomicCall A E → Prop
  | .store atomic _ _ | .add atomic _ _ | .sub atomic _ _ => atomic ≠ some a
  | .load _ _ | .compareExchange _ _ _ _ => True

instance [DecidableEq A] (a : A) (c : AtomicCall A E) : Decidable (c.Spares a) :=
  match c with
  | .store atomic _ _ | .add atomic _ _ | .sub atomic _ _ =>
      inferInstanceAs (Decidable (atomic ≠ some a))
  | .load _ _ | .compareExchange _ _ _ _ => inferInstanceAs (Decidable True)

/-- After its builtin, a call only returns. -/
theorem body_step {c : AtomicCall A E} {p : AtomicOp A E}
    {k : p.Res → Prog (atomicSig A E) AtomicVal} (h : c.body = .step p k) (r : p.Res) :
    c.Performs p ∧ ∃ x, k r = .ret x := by
  cases c with
  | load a o =>
      cases a with
      | none => cases h
      | some a =>
          cases h
          exact ⟨⟨a, rfl, rfl⟩, _, rfl⟩
  | store a v o =>
      cases a with
      | none => cases h
      | some a =>
          cases h
          exact ⟨⟨a, rfl, rfl⟩, _, rfl⟩
  | add a v o =>
      cases a with
      | none => cases h
      | some a =>
          cases h
          exact ⟨⟨a, rfl, rfl⟩, _, rfl⟩
  | sub a v o =>
      cases a with
      | none => cases h
      | some a =>
          cases h
          exact ⟨⟨a, rfl, rfl⟩, _, rfl⟩
  | compareExchange a e d o =>
      cases a with
      | none => cases h
      | some a =>
          cases e with
          | none => cases h
          | some e =>
              cases h
              exact ⟨⟨a, e, rfl, rfl, rfl⟩, _, rfl⟩

end AtomicCall

namespace Exchange

open Atomic (AtomicEvent)
open Handover (Leads)

variable {A E τ : Type}

abbrev ExchangeView (A E τ : Type) :=
  View (atomicSig A E) τ (AtomicMem A E) (AtomicCall A E) AtomicVal

abbrev ExchangePool (A E τ : Type) :=
  Pool (atomicSig A E) τ (AtomicMem A E) (AtomicCall A E) AtomicVal

/-- A call that writes `a` by compare-exchange at most, with an object that no call in progress
has and that holds, if it is `a` that is to be exchanged, the value given to the call. -/
def Own (a : A) (given : Nat → Int32) (v : ExchangeView A E τ) (_ : τ) (c : AtomicCall A E) :
    Prop :=
  c.Spares a ∧
    match c with
    | .compareExchange atomic (some e) _ _ =>
        (atomic = some a → v.shared.expected e = given v.next) ∧
          ∀ u, (v.calls u).bind (fun x => x.2.expected) ≠ some e
    | .compareExchange _ none _ _ | .load _ _ | .store _ _ _ | .add _ _ _ | .sub _ _ _ => True

instance [DecidableEq A] [DecidableEq E] [Fintype τ] (a : A) (given : Nat → Int32)
    (v : ExchangeView A E τ) (t : τ) (c : AtomicCall A E) : Decidable (Own a given v t c) :=
  match c with
  | .compareExchange atomic (some e) d o =>
      inferInstanceAs (Decidable ((AtomicCall.compareExchange atomic (some e) d o).Spares a ∧
        (atomic = some a → v.shared.expected e = given v.next) ∧
          ∀ u, (v.calls u).bind (fun x => x.2.expected) ≠ some e))
  | .compareExchange atomic none d o =>
      inferInstanceAs (Decidable
        ((AtomicCall.compareExchange atomic (none : Option E) d o).Spares a ∧ True))
  | .load atomic o =>
      inferInstanceAs (Decidable ((AtomicCall.load atomic o : AtomicCall A E).Spares a ∧ True))
  | .store atomic w o =>
      inferInstanceAs (Decidable ((AtomicCall.store atomic w o : AtomicCall A E).Spares a ∧ True))
  | .add atomic w o =>
      inferInstanceAs (Decidable ((AtomicCall.add atomic w o : AtomicCall A E).Spares a ∧ True))
  | .sub atomic w o =>
      inferInstanceAs (Decidable ((AtomicCall.sub atomic w o : AtomicCall A E).Spares a ∧ True))

/-- An object is in the hands of one call. -/
theorem Own.object {a : A} {given : Nat → Int32} {v : ExchangeView A E τ} {t : τ}
    {c : AtomicCall A E} (h : Own a given v t c) {e : E} (he : c.expected = some e) {u : τ}
    {id : Nat} {c' : AtomicCall A E} (hu : v.calls u = some (id, c')) : c'.expected ≠ some e := by
  cases c with
  | compareExchange atomic expected d o =>
      cases he
      have hfree := h.2.2 u
      rw [hu] at hfree
      exact hfree
  | load | store | add | sub => cases he

/-! ### The exchanges of a trace -/

section Traces

variable [DecidableEq A]

/-- An event that is an exchange of `a`: the call, and what it put there. -/
def exchange (a : A) : AtomicEvent A E τ → Option (Nat × Int32)
  | .prim id _ (.compareExchange ptr _ d _ _ _) true => if ptr = a then some (id, d) else none
  | _ => none

/-- The exchanges of `a` in a trace, in their order. -/
def exchanges (a : A) (tr : List (AtomicEvent A E τ)) : List (Nat × Int32) :=
  tr.filterMap (exchange a)

/-- The exchanges of a trace lead from `v` to `w`, each from what its call had been given. -/
def Hands (a : A) (given : Nat → Int32) (v : Int32) (tr : List (AtomicEvent A E τ)) (w : Int32) :
    Prop :=
  Leads (fun x : Nat × Int32 => given x.1) Prod.snd v (exchanges a tr) w

/-- An event that is no exchange of `a` leaves the exchanges as they are. -/
theorem exchanges_snoc {a : A} (tr : List (AtomicEvent A E τ)) {ev : AtomicEvent A E τ}
    (h : exchange a ev = none) : exchanges a (tr ++ [ev]) = exchanges a tr := by
  simp [exchanges, h]

theorem exchanges_snoc_cas (a : A) (tr : List (AtomicEvent A E τ)) (id : Nat) (t : τ) (e : E)
    (d : Int32) (o : TtMemoryOrder) (exchanged : Bool) :
    exchanges a (tr ++ [.prim id t (atomicCas a e d o) exchanged]) =
      exchanges a tr ++ if exchanged then [(id, d)] else [] := by
  cases exchanged <;> simp [exchanges, exchange, atomicCas]

/-- An exchange is a builtin that answered so. -/
theorem mem_exchanges {a : A} {tr : List (AtomicEvent A E τ)} {id : Nat} {d : Int32}
    (h : (id, d) ∈ exchanges a tr) :
    ∃ t e b s f, .prim id t (.compareExchange a e d b s f) true ∈ tr := by
  obtain ⟨ev, hev, heq⟩ := List.mem_filterMap.mp h
  cases ev with
  | call id' t c => cases heq
  | ret id' t c x => cases heq
  | prim id' t p r =>
      cases p with
      | compareExchange ptr e d' b s f =>
          cases r with
          | false => cases heq
          | true =>
              simp only [exchange, Option.ite_none_right_eq_some, Option.some.injEq,
                Prod.mk.injEq] at heq
              obtain ⟨rfl, rfl, rfl⟩ := heq
              exact ⟨t, e, b, s, f, hev⟩
      | load | store | fetchAdd | fetchSub => cases heq

end Traces

/-! ### The builtins -/

section Builtins

variable [DecidableEq A] [DecidableEq E] {a : A} {e : E} {d : Int32} {o : TtMemoryOrder} {t : τ}
  {x : Unit} {s s' : AtomicMem A E}

/-- A builtin can always be performed. -/
theorem exec_total (p : AtomicOp A E) : ∃ r s', atomicExec x t p s = some (r, s') := by
  cases p with
  | compareExchange ptr expected desired weak success failure =>
      simp only [atomicExec]
      split
      · exact ⟨_, _, rfl⟩
      · exact ⟨_, _, rfl⟩
  | load | store | fetchAdd | fetchSub => exact ⟨_, _, rfl⟩

/-- Whether the atomic holds what the object holds, and what each of them holds afterwards. -/
theorem exec_cas {r : Bool} (hexec : atomicExec x t (atomicCas a e d o) s = some (r, s')) :
    r = decide (s.value a = s.expected e) ∧ s'.value a = (if r then d else s.value a) ∧
      s'.expected = Function.update s.expected e (s.value a) := by
  simp only [atomicCas, atomicExec] at hexec
  split at hexec
  · rename_i heq
    cases hexec
    refine ⟨(decide_eq_true heq).symm, by simp, ?_⟩
    rw [heq, Function.update_eq_self]
  · rename_i hne
    cases hexec
    exact ⟨(decide_eq_false hne).symm, by simp, rfl⟩

/-- The other calls leave `a` alone, and every object but their own. -/
theorem exec_other {c : AtomicCall A E} (hspares : c.Spares a)
    (hcas : ∀ e d o, c ≠ .compareExchange (some a) (some e) d o) {p : AtomicOp A E}
    (hp : c.Performs p) {r : p.Res} (hexec : atomicExec x t p s = some (r, s')) (id : Nat) :
    s'.value a = s.value a ∧ (∀ e, c.expected ≠ some e → s'.expected e = s.expected e) ∧
      exchange a (.prim id t p r : AtomicEvent A E τ) = none := by
  cases c with
  | load atomic o =>
      obtain ⟨y, -, rfl⟩ := hp
      cases hexec
      exact ⟨rfl, fun _ _ => rfl, rfl⟩
  | store atomic v o =>
      obtain ⟨y, rfl, rfl⟩ := hp
      cases hexec
      refine ⟨Function.update_of_ne ?_ .., fun _ _ => rfl, rfl⟩
      rintro rfl
      exact hspares rfl
  | add atomic v o =>
      obtain ⟨y, rfl, rfl⟩ := hp
      cases hexec
      refine ⟨Function.update_of_ne ?_ .., fun _ _ => rfl, rfl⟩
      rintro rfl
      exact hspares rfl
  | sub atomic v o =>
      obtain ⟨y, rfl, rfl⟩ := hp
      cases hexec
      refine ⟨Function.update_of_ne ?_ .., fun _ _ => rfl, rfl⟩
      rintro rfl
      exact hspares rfl
  | compareExchange atomic expected d o =>
      obtain ⟨y, z, rfl, rfl, rfl⟩ := hp
      have hya : y ≠ a := by
        rintro rfl
        exact hcas z d o rfl
      simp only [atomicCas, atomicExec] at hexec
      split at hexec
      · cases hexec
        refine ⟨Function.update_of_ne (Ne.symm hya) .., fun _ _ => rfl, ?_⟩
        exact if_neg hya
      · cases hexec
        refine ⟨rfl, fun e he => Function.update_of_ne ?_ .., rfl⟩
        rintro rfl
        exact he rfl

end Builtins

/-! ### What the calls answer -/

section Answers

variable [DecidableEq A] {a : A} {v : Int32} {given : Nat → Int32} {tr : List (AtomicEvent A E τ)}
  {id : Nat} {t : τ} {e : E} {d : Int32} {o : TtMemoryOrder} {w : Int32}

/-- Call `id` has performed its builtin, at which the atomic held `w`. -/
def Answered (a : A) (v : Int32) (given : Nat → Int32) (tr : List (AtomicEvent A E τ)) (id : Nat)
    (t : τ) (e : E) (d : Int32) (o : TtMemoryOrder) (w : Int32) : Prop :=
  ∃ before after,
    tr = before ++ .prim id t (atomicCas a e d o) (decide (w = given id)) :: after ∧
    prims tr id = [⟨atomicCas a e d o, decide (w = given id)⟩] ∧ Hands a given v before w

theorem Answered.snoc (h : Answered a v given tr id t e d o w) {ev : AtomicEvent A E τ}
    (hev : prims (tr ++ [ev]) id = prims tr id) :
    Answered a v given (tr ++ [ev]) id t e d o w := by
  obtain ⟨before, after, rfl, hprims, hhands⟩ := h
  exact ⟨before, after ++ [ev], by simp, hev.trans hprims, hhands⟩

/-- A call that found what it had been given has exchanged it. -/
theorem Answered.exchanged (h : Answered a v given tr id t e d o w) (hw : w = given id) :
    (id, d) ∈ exchanges a tr := by
  obtain ⟨before, after, rfl, -, -⟩ := h
  refine List.mem_filterMap.mpr ⟨_, List.mem_append_right _ List.mem_cons_self, ?_⟩
  rw [decide_eq_true hw]
  exact if_pos rfl

/-- A call that has exchanged found what it had been given. -/
theorem Answered.of_exchanged (h : Answered a v given tr id t e d o w) {d' : Int32}
    (hd : (id, d') ∈ exchanges a tr) : w = given id := by
  obtain ⟨before, after, -, hprims, -⟩ := h
  obtain ⟨t', e', b, s, f, hmem⟩ := mem_exchanges hd
  have hdone := mem_prims hmem
  rw [hprims, List.mem_singleton] at hdone
  by_contra hne
  rw [decide_eq_false hne] at hdone
  cases hdone

end Answers

/-! ### The invariant -/

/-- `t` is in a compare-exchange of `a` and has not performed its builtin; its object holds what
it was given. -/
structure Ahead (given : Nat → Int32) (pl : ExchangePool A E τ) (t : τ) (id : Nat)
    (c : AtomicCall A E) (e : E) : Prop where
  prog : pl.prog t = some c.body
  prims : prims pl.view.trace id = []
  object : pl.view.shared.expected e = given id

/-- `t` is about to return from it; its object holds what the atomic held at its builtin. -/
structure Returning [DecidableEq A] (a : A) (v : Int32) (given : Nat → Int32)
    (pl : ExchangePool A E τ) (t : τ) (id : Nat) (e : E) (d : Int32) (o : TtMemoryOrder)
    (w : Int32) : Prop where
  prog : pl.prog t = some (.ret (.bool (decide (w = given id))))
  answered : Answered a v given pl.view.trace id t e d o w
  object : pl.view.shared.expected e = w

structure Inv [DecidableEq A] (a : A) (v : Int32) (given : Nat → Int32)
    (pl : ExchangePool A E τ) : Prop where
  hands : Hands a given v pl.view.trace (pl.view.shared.value a)
  once : ((exchanges a pl.view.trace).map Prod.fst).Nodup
  spares : ∀ t id c, pl.view.calls t = some (id, c) → c.Spares a
  thread : ∀ t id c, pl.view.calls t = some (id, c) →
    pl.prog t = some c.body ∨ ∃ x, pl.prog t = some (.ret x)
  exchanging : ∀ t id e d o,
    pl.view.calls t = some (id, .compareExchange (some a) (some e) d o) →
      Ahead given pl t id (.compareExchange (some a) (some e) d o) e ∨
        ∃ w, Returning a v given pl t id e d o w
  apart : ∀ t u id id' c c' e, pl.view.calls t = some (id, c) → pl.view.calls u = some (id', c') →
    c.expected = some e → c'.expected = some e → t = u
  returned : ∀ id t e d o x,
    .ret id t (.compareExchange (some a) (some e) d o) x ∈ pl.view.trace →
      ∃ w, x = .bool (decide (w = given id)) ∧ Answered a v given pl.view.trace id t e d o w

section Steps

variable [DecidableEq A] {a : A} {v : Int32} {given : Nat → Int32} {pl pl' : ExchangePool A E τ}
  {t u : τ} {id : Nat} {c : AtomicCall A E} {e : E} {d : Int32} {o : TtMemoryOrder}

theorem inv_start {s : AtomicMem A E} :
    Inv a (s.value a) given (Sys.start s : ExchangePool A E τ) := by
  refine ⟨rfl, List.nodup_nil, ?_, ?_, ?_, ?_, ?_⟩
  · intro t id c hc
    cases hc
  · intro t id c hc
    cases hc
  · intro t id e d o hc
    cases hc
  · intro t u id id' c c' e hc
    cases hc
  · intro id t e d o x hret
    cases hret

/-- A call is where it was when another thread moves and leaves its object alone. -/
theorem Inv.other (h : Inv a v given pl)
    (hcall : pl.view.calls u = some (id, .compareExchange (some a) (some e) d o))
    (hprog : pl'.prog u = pl.prog u) {ev : AtomicEvent A E τ}
    (htrace : pl'.view.trace = pl.view.trace ++ [ev])
    (hprims : prims (pl.view.trace ++ [ev]) id = prims pl.view.trace id)
    (hobject : pl'.view.shared.expected e = pl.view.shared.expected e) :
    Ahead given pl' u id (.compareExchange (some a) (some e) d o) e ∨
      ∃ w, Returning a v given pl' u id e d o w := by
  rcases h.exchanging u id e d o hcall with hahead | ⟨w, hreturning⟩
  · refine Or.inl ⟨hprog.trans hahead.prog, ?_, hobject.trans hahead.object⟩
    rw [htrace, hprims]
    exact hahead.prims
  · refine Or.inr ⟨w, hprog.trans hreturning.prog, ?_, hobject.trans hreturning.object⟩
    rw [htrace]
    exact hreturning.answered.snoc hprims

variable [DecidableEq τ]

theorem Inv.call (h : Inv a v given pl) (hb : Books pl.view) (hown : Own a given pl.view t c) :
    Inv a v given ⟨pl.view.call t c, Function.update pl.prog t (some c.body)⟩ := by
  have hself : ∀ id c', (pl.view.call t c).calls t = some (id, c') →
      pl.view.next = id ∧ c = c' := by
    intro id c' hc
    simpa using hc
  have hothers : ∀ u id c', u ≠ t → (pl.view.call t c).calls u = some (id, c') →
      pl.view.calls u = some (id, c') := by
    intro u id c' hut hu
    simpa [hut] using hu
  have hexchanges : exchanges a (pl.view.call t c).trace = exchanges a pl.view.trace :=
    exchanges_snoc _ rfl
  refine ⟨?_, ?_, ?_, ?_, ?_, ?_, ?_⟩
  · unfold Hands
    rw [hexchanges]
    exact h.hands
  · rw [hexchanges]
    exact h.once
  · intro u id c' hu
    by_cases hut : u = t
    · subst hut
      obtain ⟨-, rfl⟩ := hself id c' hu
      exact hown.1
    · exact h.spares u id c' (hothers u id c' hut hu)
  · intro u id c' hu
    by_cases hut : u = t
    · subst hut
      obtain ⟨-, rfl⟩ := hself id c' hu
      exact Or.inl (Function.update_self ..)
    · simpa [hut] using h.thread u id c' (hothers u id c' hut hu)
  · intro u id e d o hu
    by_cases hut : u = t
    · subst hut
      obtain ⟨rfl, rfl⟩ := hself id _ hu
      refine Or.inl ⟨Function.update_self .., ?_, hown.2.1 rfl⟩
      simpa using hb.fresh _ (Nat.le_refl _)
    · exact h.other (hothers u id _ hut hu) (by simp [hut]) rfl (by simp) rfl
  · intro u u' id id' c₁ c₂ e hu hu' he he'
    by_cases hut : u = t
    · by_cases hut' : u' = t
      · exact hut.trans hut'.symm
      · subst hut
        obtain ⟨-, rfl⟩ := hself id c₁ hu
        exact absurd he' (hown.object he (hothers u' id' c₂ hut' hu'))
    · by_cases hut' : u' = t
      · subst hut'
        obtain ⟨-, rfl⟩ := hself id' c₂ hu'
        exact absurd he (hown.object he' (hothers u id c₁ hut hu))
      · exact h.apart u u' id id' c₁ c₂ e (hothers u id c₁ hut hu) (hothers u' id' c₂ hut' hu')
          he he'
  · intro id u e d o x hret
    obtain ⟨w, rfl, hanswered⟩ := h.returned id u e d o x (by simpa using hret)
    exact ⟨w, rfl, hanswered.snoc (by simp)⟩

section Prim

variable [DecidableEq E] {x : Unit} {s : AtomicMem A E}

omit [DecidableEq E] in
/-- What the builtin of one call means for the other calls. -/
theorem Inv.prim_others (h : Inv a v given pl) (hb : Books pl.view)
    (hcall : pl.view.calls t = some (id, c)) {p : AtomicOp A E} {r : p.Res}
    (hobjects : ∀ e, c.expected ≠ some e → s.expected e = pl.view.shared.expected e)
    (m : Option (Prog (atomicSig A E) AtomicVal)) :
    (∀ u id' e d o, u ≠ t →
      pl.view.calls u = some (id', .compareExchange (some a) (some e) d o) →
        Ahead given ⟨pl.view.prim id t p r s, Function.update pl.prog t m⟩ u id'
            (.compareExchange (some a) (some e) d o) e ∨
          ∃ w, Returning a v given ⟨pl.view.prim id t p r s, Function.update pl.prog t m⟩ u id'
            e d o w) ∧
      ∀ id' u e d o y,
        .ret id' u (.compareExchange (some a) (some e) d o) y ∈ (pl.view.prim id t p r s).trace →
          ∃ w, y = .bool (decide (w = given id')) ∧
            Answered a v given (pl.view.prim id t p r s).trace id' u e d o w := by
  have hprims : ∀ id', id' ≠ id →
      prims (pl.view.trace ++ [.prim id t p r]) id' = prims pl.view.trace id' :=
    fun id' hid => prims_snoc_of_ne _ (Ne.symm hid) _ _ _
  refine ⟨?_, ?_⟩
  · intro u id' e d o hut hu
    refine h.other hu (Function.update_of_ne hut ..) rfl (hprims id' ?_) (hobjects e ?_)
    · rintro rfl
      exact hut (hb.apart u t id' _ _ hu hcall)
    · intro he
      exact hut (h.apart u t id' id _ c e hu hcall rfl he)
  · intro id' u e d o y hret
    have hold : .ret id' u (.compareExchange (some a) (some e) d o) y ∈ pl.view.trace := by
      simpa using hret
    obtain ⟨w, rfl, hanswered⟩ := h.returned id' u e d o y hold
    refine ⟨w, rfl, hanswered.snoc (hprims id' ?_)⟩
    rintro rfl
    exact hb.pending t id' c u _ _ hcall hold

/-- The builtin of a compare-exchange of `a`. -/
theorem Inv.prim_cas (h : Inv a v given pl) (hb : Books pl.view)
    (hcall : pl.view.calls t = some (id, .compareExchange (some a) (some e) d o))
    (hprog : pl.prog t = some (AtomicCall.compareExchange (some a) (some e) d o).body) {r : Bool}
    (hexec : atomicExec x t (atomicCas a e d o) pl.view.shared = some (r, s)) :
    Inv a v given ⟨pl.view.prim id t (atomicCas a e d o) r s,
      Function.update pl.prog t (some (.ret (.bool r)))⟩ := by
  have hahead : Ahead given pl t id (.compareExchange (some a) (some e) d o) e := by
    rcases h.exchanging t id e d o hcall with hahead | ⟨w, hreturning⟩
    · exact hahead
    · -- a call that has performed its builtin has nothing left but to return
      have hret := hreturning.prog
      rw [hprog] at hret
      cases hret
  obtain ⟨hr, hvalue, hobjects⟩ := exec_cas hexec
  rw [hahead.object] at hr
  subst hr
  obtain ⟨hothers, hreturned⟩ := h.prim_others (r := decide (pl.view.shared.value a = given id))
    (s := s) (p := atomicCas a e d o) hb hcall (fun e' he' => by
      rw [hobjects, Function.update_of_ne]
      rintro rfl
      exact he' rfl) (some (.ret (.bool (decide (pl.view.shared.value a = given id)))))
  have hexchanges := exchanges_snoc_cas a pl.view.trace id t e d o
    (decide (pl.view.shared.value a = given id))
  refine ⟨?_, ?_, h.spares, ?_, ?_, h.apart, hreturned⟩
  · have hhands := h.hands
    unfold Hands at hhands ⊢
    show Leads _ _ v _ (s.value a)
    refine hexchanges ▸ ?_
    by_cases heq : pl.view.shared.value a = given id
    · rw [heq] at hhands
      simpa [hvalue, heq] using Leads.snoc (i := (id, d)) hhands
    · simpa [hvalue, heq] using hhands
  · refine hexchanges ▸ ?_
    by_cases heq : pl.view.shared.value a = given id
    · rw [if_pos (decide_eq_true heq), List.map_append, List.nodup_append]
      refine ⟨h.once, List.nodup_singleton _, ?_⟩
      rintro i hi j hj rfl
      obtain ⟨⟨i, d'⟩, hmem, rfl⟩ := List.mem_map.mp hi
      have hii : i = id := by simpa using hj
      subst hii
      obtain ⟨t', e', b, s', f, hprim⟩ := mem_exchanges hmem
      have hdone := mem_prims hprim
      rw [hahead.prims] at hdone
      cases hdone
    · simpa [heq] using h.once
  · intro u id' c' (hu : pl.view.calls u = some (id', c'))
    by_cases hut : u = t
    · subst hut
      exact Or.inr ⟨_, Function.update_self ..⟩
    · simpa [hut] using h.thread u id' c' hu
  · intro u id' e' d' o' (hu : pl.view.calls u = some (id', _))
    by_cases hut : u = t
    · subst hut
      rw [hcall] at hu
      cases hu
      refine Or.inr ⟨_, Function.update_self .., ⟨pl.view.trace, [], rfl, ?_, h.hands⟩, ?_⟩
      · refine (prims_snoc_self pl.view.trace id u (atomicCas a e d o) _).trans ?_
        rw [hahead.prims, List.nil_append]
      · show s.expected e = _
        rw [hobjects, Function.update_self]
    · exact hothers u id' e' d' o' hut hu

/-- The builtin of another call. -/
theorem Inv.prim_other (h : Inv a v given pl) (hb : Books pl.view)
    (hcall : pl.view.calls t = some (id, c))
    (hcas : ∀ e d o, c ≠ .compareExchange (some a) (some e) d o) {p : AtomicOp A E}
    (hp : c.Performs p) {r : p.Res} (hexec : atomicExec x t p pl.view.shared = some (r, s))
    (y : AtomicVal) :
    Inv a v given ⟨pl.view.prim id t p r s, Function.update pl.prog t (some (.ret y))⟩ := by
  obtain ⟨hvalue, hobjects, hexchange⟩ := exec_other (h.spares t id c hcall) hcas hp hexec id
  obtain ⟨hothers, hreturned⟩ := h.prim_others hb hcall hobjects (r := r) (some (.ret y))
  have hexchanges : exchanges a (pl.view.trace ++ [.prim id t p r]) = exchanges a pl.view.trace :=
    exchanges_snoc _ hexchange
  refine ⟨?_, ?_, h.spares, ?_, ?_, h.apart, hreturned⟩
  · unfold Hands
    rw [View.prim_trace, View.prim_shared, hexchanges, hvalue]
    exact h.hands
  · rw [View.prim_trace, hexchanges]
    exact h.once
  · intro u id' c' (hu : pl.view.calls u = some (id', c'))
    by_cases hut : u = t
    · subst hut
      exact Or.inr ⟨_, Function.update_self ..⟩
    · simpa [hut] using h.thread u id' c' hu
  · intro u id' e' d' o' (hu : pl.view.calls u = some (id', _))
    by_cases hut : u = t
    · subst hut
      rw [hcall] at hu
      cases hu
      exact absurd rfl (hcas e' d' o')
    · exact hothers u id' e' d' o' hut hu

theorem Inv.prim (h : Inv a v given pl) (hb : Books pl.view)
    (hcall : pl.view.calls t = some (id, c)) {p : AtomicOp A E}
    {k : p.Res → Prog (atomicSig A E) AtomicVal} (hprog : pl.prog t = some (.step p k))
    {r : p.Res} (hexec : atomicExec x t p pl.view.shared = some (r, s)) :
    Inv a v given ⟨pl.view.prim id t p r s, Function.update pl.prog t (some (k r))⟩ := by
  have hbody : c.body = .step p k := by
    rcases h.thread t id c hcall with hbody | ⟨y, hret⟩
    · rw [hprog] at hbody
      exact (Option.some.inj hbody).symm
    · rw [hprog] at hret
      cases hret
  by_cases hcas : ∃ e d o, c = .compareExchange (some a) (some e) d o
  · obtain ⟨e, d, o, rfl⟩ := hcas
    rw [← hbody] at hprog
    cases hbody
    exact h.prim_cas hb hcall hprog hexec
  · obtain ⟨hp, y, hy⟩ := AtomicCall.body_step hbody r
    rw [hy]
    exact h.prim_other hb hcall (fun e d o hc => hcas ⟨e, d, o, hc⟩) hp hexec y

end Prim

theorem Inv.ret (h : Inv a v given pl) (hcall : pl.view.calls t = some (id, c)) {x : AtomicVal}
    (hprog : pl.prog t = some (.ret x)) :
    Inv a v given ⟨pl.view.ret id t c x, Function.update pl.prog t none⟩ := by
  have hcalls : ∀ u id' c', (pl.view.ret id t c x).calls u = some (id', c') →
      u ≠ t ∧ pl.view.calls u = some (id', c') := by
    intro u id' c' hu
    by_cases hut : u = t
    · subst hut
      simp at hu
    · exact ⟨hut, by simpa [hut] using hu⟩
  have hexchanges : exchanges a (pl.view.ret id t c x).trace = exchanges a pl.view.trace :=
    exchanges_snoc _ rfl
  refine ⟨?_, ?_, ?_, ?_, ?_, ?_, ?_⟩
  · unfold Hands
    rw [hexchanges]
    exact h.hands
  · rw [hexchanges]
    exact h.once
  · intro u id' c' hu
    exact h.spares u id' c' (hcalls u id' c' hu).2
  · intro u id' c' hu
    obtain ⟨hut, hu⟩ := hcalls u id' c' hu
    simpa [hut] using h.thread u id' c' hu
  · intro u id' e d o hu
    obtain ⟨hut, hu⟩ := hcalls u id' _ hu
    exact h.other hu (Function.update_of_ne hut ..) rfl (by simp) rfl
  · intro u u' id₁ id₂ c₁ c₂ e hu hu'
    exact h.apart u u' id₁ id₂ c₁ c₂ e (hcalls u id₁ c₁ hu).2 (hcalls u' id₂ c₂ hu').2
  · intro id' u e d o y hret
    rcases List.mem_append.mp hret with hold | hnew
    · obtain ⟨w, rfl, hanswered⟩ := h.returned id' u e d o y hold
      exact ⟨w, rfl, hanswered.snoc (by simp)⟩
    · cases List.mem_singleton.mp hnew
      rcases h.exchanging t id e d o hcall with hahead | ⟨w, hreturning⟩
      · have hbody := hahead.prog
        rw [hprog] at hbody
        cases hbody
      · have hx := hreturning.prog
        rw [hprog] at hx
        cases hx
        exact ⟨w, rfl, hreturning.answered.snoc (by simp)⟩

end Steps

/-! ### Runs -/

section Runs

variable [DecidableEq A] [DecidableEq E] [DecidableEq τ] {a : A} {v : Int32} {given : Nat → Int32}
  {s : AtomicMem A E} {pl : ExchangePool A E τ}

theorem inv_of_reach (h : (atomicSys (atomicMachine A E τ)).Reach (Own a given) s pl) :
    Inv a (s.value a) given pl := by
  induction h with
  | start => exact inv_start
  | @step pl pl' hreach l hok hstep ih =>
      cases l with
      | call t c =>
          obtain ⟨-, rfl⟩ := Sys.step_call hstep
          exact ih.call hreach.books hok
      | prim t x =>
          obtain ⟨id, c, p, k, r, s, hc, hp, hexec, rfl⟩ := Sys.step_prim hstep
          exact ih.prim hreach.books hc hp (x := x) hexec
      | ret t =>
          obtain ⟨id, c, x, hc, hp, rfl⟩ := Sys.step_ret hstep
          exact ih.ret hc hp

/-- A thread in a call can always go on. -/
theorem Inv.progress (h : Inv a v given pl) {t : τ} {id : Nat} {c : AtomicCall A E}
    (hc : pl.view.calls t = some (id, c)) :
    (∃ pl', (atomicSys (atomicMachine A E τ)).step (.prim t ()) pl = some pl') ∨
      ∃ pl', (atomicSys (atomicMachine A E τ)).step (.ret t) pl = some pl' := by
  have hret : ∀ x, pl.prog t = some (.ret x) →
      ∃ pl', (atomicSys (atomicMachine A E τ)).step (.ret t) pl = some pl' :=
    fun x hx => ⟨_, Sys.step_ret_eq hc hx⟩
  rcases h.thread t id c hc with hbody | ⟨x, hx⟩
  · cases hm : c.body with
    | ret x => exact Or.inr (hret x (hm ▸ hbody))
    | step p k =>
        obtain ⟨r, s, hexec⟩ := exec_total (x := ()) (t := t) (s := pl.view.shared) p
        exact Or.inl ⟨_, Sys.step_prim_eq hc (hm ▸ hbody) hexec rfl⟩
  · exact Or.inr (hret x hx)

/-- What an exchange left is what its call wanted. -/
theorem exchange_wanted {ok : ExchangeView A E τ → τ → AtomicCall A E → Prop}
    (h : (atomicSys (atomicMachine A E τ)).Reach ok s pl) {id : Nat} {d : Int32}
    (hd : (id, d) ∈ exchanges a pl.view.trace) :
    ∃ t e o, .call id t (.compareExchange (some a) (some e) d o) ∈ pl.view.trace := by
  obtain ⟨t, e, b, s, f, hprim⟩ := mem_exchanges hd
  obtain ⟨c, hcall, hperforms⟩ := h.prim_mem (fun c => c.body_every) _ _ _ _ hprim
  cases c with
  | compareExchange atomic expected d' o =>
      obtain ⟨y, z, rfl, rfl, heq⟩ := hperforms
      cases heq
      exact ⟨t, e, o, hcall⟩
  | load atomic o =>
      obtain ⟨y, -, heq⟩ := hperforms
      cases heq
  | store atomic w o =>
      obtain ⟨y, -, heq⟩ := hperforms
      cases heq
  | add atomic w o =>
      obtain ⟨y, -, heq⟩ := hperforms
      cases heq
  | sub atomic w o =>
      obtain ⟨y, -, heq⟩ := hperforms
      cases heq

end Runs

/-! ### What is exchanged once -/

/-- Call `id` has exchanged `a`, and returned. -/
def Succeeded (a : A) (tr : List (AtomicEvent A E τ)) (id : Nat) : Prop :=
  ∃ t e d o, .ret id t (.compareExchange (some a) (some e) d o) (.bool true) ∈ tr

/-- `a` holds `x` once at most: as its first value, or because of the one call that wants it. -/
structure Rare (a : A) (v : Int32) (tr : List (AtomicEvent A E τ)) (x : Int32) : Prop where
  start : v = x → ∀ id t e o, .call id t (.compareExchange (some a) e x o) ∉ tr
  single : ∀ id t e o id' t' e' o', .call id t (.compareExchange (some a) e x o) ∈ tr →
    .call id' t' (.compareExchange (some a) e' x o') ∈ tr → id = id'

/-- What the compare-exchanges of a trace come to. -/
structure Exchanged [DecidableEq A] (a : A) (v : Int32) (given : Nat → Int32)
    (pl : ExchangePool A E τ) : Prop where
  hands : Hands a given v pl.view.trace (pl.view.shared.value a)
  answers : ∀ id t e d o x,
    .ret id t (.compareExchange (some a) (some e) d o) x ∈ pl.view.trace →
      ∃ w, x = .bool (decide (w = given id)) ∧ Answered a v given pl.view.trace id t e d o w
  objects : ∀ t id e d o x,
    pl.view.calls t = some (id, .compareExchange (some a) (some e) d o) →
      pl.prog t = some (.ret x) → x = .bool (decide (pl.view.shared.expected e = given id)) ∧
        Answered a v given pl.view.trace id t e d o (pl.view.shared.expected e)
  once : ∀ x, Rare a v pl.view.trace x → ∀ id id', Succeeded a pl.view.trace id →
    Succeeded a pl.view.trace id' → given id = x → given id' = x → id = id'

section Results

variable [DecidableEq A] {a : A} {v : Int32} {given : Nat → Int32} {pl : ExchangePool A E τ}

/-- A call that returned `true` is among the exchanges. -/
theorem Inv.succeeded (h : Inv a v given pl) {id : Nat} (hid : Succeeded a pl.view.trace id) :
    ∃ d, (id, d) ∈ exchanges a pl.view.trace := by
  obtain ⟨t, e, d, o, hret⟩ := hid
  obtain ⟨w, hx, hanswered⟩ := h.returned id t e d o _ hret
  exact ⟨d, hanswered.exchanged (of_decide_eq_true (AtomicVal.bool.inj hx).symm)⟩

theorem Inv.objects (h : Inv a v given pl) {t : τ} {id : Nat} {e : E} {d : Int32}
    {o : TtMemoryOrder} {x : AtomicVal}
    (hcall : pl.view.calls t = some (id, .compareExchange (some a) (some e) d o))
    (hprog : pl.prog t = some (.ret x)) :
    x = .bool (decide (pl.view.shared.expected e = given id)) ∧
      Answered a v given pl.view.trace id t e d o (pl.view.shared.expected e) := by
  rcases h.exchanging t id e d o hcall with hahead | ⟨w, hreturning⟩
  · have hbody := hahead.prog
    rw [hprog] at hbody
    cases hbody
  · have hx := hreturning.prog
    rw [hprog] at hx
    cases hx
    rw [hreturning.object]
    exact ⟨rfl, hreturning.answered⟩

theorem exchanged [DecidableEq E] [DecidableEq τ] {s : AtomicMem A E}
    (h : (atomicSys (atomicMachine A E τ)).Reach (Own a given) s pl) :
    Exchanged a (s.value a) given pl := by
  have hinv := inv_of_reach h
  refine ⟨hinv.hands, hinv.returned, fun t id e d o x => hinv.objects, ?_⟩
  intro x hrare id id' hid hid' hx hx'
  obtain ⟨d, hd⟩ := hinv.succeeded hid
  obtain ⟨d', hd'⟩ := hinv.succeeded hid'
  have hsame : (id, d) = (id', d') := by
    refine hinv.hands.once hinv.once.of_map ?_ ?_ (id, d) hd (id', d') hd' hx hx'
    · rintro ⟨i, y⟩ hi rfl hstart
      obtain ⟨t, e, o, hcall⟩ := exchange_wanted h hi
      exact hrare.start hstart i t (some e) o hcall
    · rintro ⟨i, y⟩ hi ⟨j, z⟩ hj rfl hz
      obtain rfl : z = y := hz
      obtain ⟨t, e, o, hcall⟩ := exchange_wanted h hi
      obtain ⟨t', e', o', hcall'⟩ := exchange_wanted h hj
      rw [hrare.single i t (some e) o j t' (some e') o' hcall hcall']
  exact (Prod.mk.inj hsame).1

end Results

end Exchange

/-- What `tt_atomic_init` leaves in the atomic. -/
theorem ttAtomicInit_value {A E : Type} [DecidableEq A] {a : A} {v : Int32} {s₀ s : AtomicMem A E}
    (h : ttAtomicInit (some a) v s₀ = (.success, s)) : s.value a = v := by
  have hs : s = { s₀ with value := Function.update s₀.value a v } := (Prod.mk.inj h).2.symm
  rw [hs]
  exact Function.update_self ..

/--
**Compare-exchange loses no update.**  Any number of threads call the functions of
`tt_atomic.h`, on an atomic that was initialised to `v` and on others, and write that
one by `tt_atomic_compare_exchange` only, each call with an object that no call in
progress has.  Then the exchanges lead from `v` to what the atomic holds, each from the
value its call had been given; a call answers `true` exactly if the atomic held that
value at its builtin, and returns with what the atomic held there in its object; and
every call can go on.  Of the calls that were given a value which the atomic holds at
most once, at most one succeeds.
-/
theorem ttAtomic_exchange {A E τ : Type} [DecidableEq A] [DecidableEq E] [DecidableEq τ] {a : A}
    {v : Int32} {s₀ s : AtomicMem A E} (hinit : ttAtomicInit (some a) v s₀ = (.success, s))
    {given : Nat → Int32} {pl : Exchange.ExchangePool A E τ}
    (h : (atomicSys (atomicMachine A E τ)).Reach (Exchange.Own a given) s pl) :
    Exchange.Exchanged a v given pl ∧
      ∀ t id c, pl.view.calls t = some (id, c) →
        (∃ pl', (atomicSys (atomicMachine A E τ)).step (.prim t ()) pl = some pl') ∨
          ∃ pl', (atomicSys (atomicMachine A E τ)).step (.ret t) pl = some pl' := by
  rw [← ttAtomicInit_value hinit]
  exact ⟨Exchange.exchanged h, fun t id c hc => (Exchange.inv_of_reach h).progress hc⟩

/-- A thread that comes too late, and exchanges what it found when it tries again. -/
theorem ttAtomic_exchange_retried :
    ∃ (given : Nat → Int32) (pl : Exchange.ExchangePool Unit Bool Bool),
      Exchange.Exchanged () 0 given pl ∧
        .ret 0 true (.compareExchange (some ()) (some true) 1 .seqCst) (.bool false)
          ∈ pl.view.trace ∧
        pl.view.shared.value () = 3 := by
  have hrun : ((atomicSys (atomicMachine Unit Bool Bool)).run
      (Exchange.Own () fun id => if id = 2 then 2 else 0)
      [.call true (.compareExchange (some ()) (some true) 1 .seqCst),
        .call false (.compareExchange (some ()) (some false) 2 .seqCst),
        .prim false (), .prim true (), .ret true, .ret false,
        .call true (.compareExchange (some ()) (some true) 3 .seqCst), .prim true ()]
      (Sys.start ⟨fun _ => 0, fun _ => 0⟩)).isSome = true := rfl
  have hreach := Sys.Reach.run _ .start (Option.some_get hrun).symm
  have hinit : ttAtomicInit (some ()) 0 (⟨fun _ => 0, fun _ => 0⟩ : AtomicMem Unit Bool)
      = (.success, ⟨fun _ => 0, fun _ => 0⟩) := by
    refine Prod.ext rfl ?_
    show AtomicMem.mk _ _ = AtomicMem.mk _ _
    congr 1
  exact ⟨_, _, (ttAtomic_exchange hinit hreach).1, List.mem_of_getElem? (i := 4) rfl, rfl⟩

namespace Exchange

open Atomic (AtomicEvent)
open Handover (Leads)

/-! ### Elections

All compare-exchanges of the atomic start from its first value, and none wants to go
back to it. -/

/-- A compare-exchange of `a` wants another value than `v`. -/
def Proposes {A E : Type} (a : A) (v : Int32) : AtomicCall A E → Prop
  | .compareExchange atomic _ desired _ => atomic = some a → desired ≠ v
  | .load _ _ | .store _ _ _ | .add _ _ _ | .sub _ _ _ => True

instance {A E : Type} [DecidableEq A] (a : A) (v : Int32) (c : AtomicCall A E) :
    Decidable (Proposes a v c) :=
  match c with
  | .compareExchange atomic _ desired _ =>
      inferInstanceAs (Decidable (atomic = some a → desired ≠ v))
  | .load _ _ | .store _ _ _ | .add _ _ _ | .sub _ _ _ => inferInstanceAs (Decidable True)

/-- No compare-exchange of `a` has performed its builtin. -/
structure Undecided {A E τ : Type} (a : A) (v : Int32) (pl : ExchangePool A E τ) : Prop where
  value : pl.view.shared.value a = v
  ahead : ∀ t id e d o, pl.view.calls t = some (id, .compareExchange (some a) (some e) d o) →
    pl.prog t = some (AtomicCall.compareExchange (some a) (some e) d o).body
  answers : ∀ id t e d o x,
    .ret id t (.compareExchange (some a) (some e) d o) x ∉ pl.view.trace

/-- Call `winner` has exchanged `a`, and every other call learns what it wanted. -/
structure Elected {A E τ : Type} [DecidableEq A] (a : A) (v : Int32) (pl : ExchangePool A E τ)
    (winner : Nat) : Prop where
  single : exchanges a pl.view.trace = [(winner, pl.view.shared.value a)]
  value : pl.view.shared.value a ≠ v
  wanted : ∃ t e o,
    .call winner t (.compareExchange (some a) (some e) (pl.view.shared.value a) o) ∈ pl.view.trace
  answers : ∀ id t e d o x,
    .ret id t (.compareExchange (some a) (some e) d o) x ∈ pl.view.trace →
      x = .bool (decide (id = winner))
  objects : ∀ t id e d o x,
    pl.view.calls t = some (id, .compareExchange (some a) (some e) d o) →
      pl.prog t = some (.ret x) → x = .bool (decide (id = winner)) ∧
        pl.view.shared.expected e = if id = winner then v else pl.view.shared.value a

section Election

variable {A E τ : Type} [DecidableEq A] {a : A} {v : Int32} {tr : List (AtomicEvent A E τ)}
  {given : Nat → Int32} {id : Nat} {t : τ} {e : E} {d : Int32} {o : TtMemoryOrder} {w : Int32}

/-- What the atomic held at a builtin, by the exchanges before it. -/
theorem Answered.before (h : Answered a v given tr id t e d o w) :
    ∃ before rest, exchanges a tr = before ++ rest ∧
      Leads (fun x : Nat × Int32 => given x.1) Prod.snd v before w := by
  obtain ⟨before, after, rfl, -, hhands⟩ := h
  exact ⟨_, _, List.filterMap_append, hhands⟩

/-- Without an exchange no call has performed its builtin. -/
theorem Answered.exchanges_ne (h : Answered a v (fun _ => v) tr id t e d o w) :
    exchanges a tr ≠ [] := by
  intro hnil
  obtain ⟨before, rest, htr, hleads⟩ := h.before
  rw [hnil] at htr
  obtain ⟨rfl, -⟩ := List.append_eq_nil_iff.mp htr.symm
  have hw : v = w := hleads
  have hmem := h.exchanged hw.symm
  rw [hnil] at hmem
  cases hmem

/-- With one exchange, every other call found what that one left. -/
theorem Answered.found (h : Answered a v (fun _ => v) tr id t e d o w) {winner : Nat} {y : Int32}
    (htr : exchanges a tr = [(winner, y)]) : w = if id = winner then v else y := by
  by_cases hid : id = winner
  · subst hid
    rw [if_pos rfl]
    exact h.of_exchanged (htr ▸ List.mem_singleton_self _)
  · rw [if_neg hid]
    obtain ⟨before, rest, happend, hleads⟩ := h.before
    rw [htr, eq_comm, List.append_eq_singleton_iff] at happend
    rcases happend with ⟨rfl, -⟩ | ⟨rfl, -⟩
    · have hw : v = w := hleads
      have hmem := h.exchanged hw.symm
      rw [htr, List.mem_singleton] at hmem
      exact absurd (Prod.mk.inj hmem).1 hid
    · exact hleads.2.symm

variable [DecidableEq E] [DecidableEq τ] {s : AtomicMem A E} {pl pl' : ExchangePool A E τ}

/-- The clients of an election. -/
abbrev Candidates (a : A) (v : Int32) (view : ExchangeView A E τ) (t : τ) (c : AtomicCall A E) :
    Prop :=
  Own a (fun _ => v) view t c ∧ Proposes a v c

/-- There is one exchange at most, and it does not leave the first value. -/
theorem exchanges_of_reach
    (h : (atomicSys (atomicMachine A E τ)).Reach (Candidates a (s.value a)) s pl) :
    exchanges a pl.view.trace = [] ∨
      ∃ winner y, exchanges a pl.view.trace = [(winner, y)] ∧ y ≠ s.value a := by
  have hinv := inv_of_reach (h.mono fun _ _ _ hok => hok.1)
  have hother : ∀ x ∈ exchanges a pl.view.trace, x.2 ≠ s.value a := by
    rintro ⟨id, d⟩ hd
    obtain ⟨t, e, o, hcall⟩ := exchange_wanted h hd
    exact h.call_mem (P := Proposes a (s.value a)) (fun _ _ _ hok => hok.2) id t _ hcall rfl
  have hone : ∀ x ∈ exchanges a pl.view.trace, ∀ y ∈ exchanges a pl.view.trace, x = y := by
    intro x hx y hy
    refine hinv.hands.once hinv.once.of_map ?_ ?_ x hx y hy rfl rfl
    · intro i hi heq
      exact absurd heq (hother i hi)
    · intro i hi j hj heq
      exact absurd heq (hother i hi)
  cases hl : exchanges a pl.view.trace with
  | nil => exact Or.inl rfl
  | cons x l =>
      rw [hl] at hother hone
      have hnodup : (x :: l).Nodup := by
        rw [← hl]
        exact hinv.once.of_map
      have hnil : l = [] := by
        refine List.eq_nil_iff_forall_not_mem.mpr fun y hy => ?_
        rw [hone x List.mem_cons_self y (List.mem_cons_of_mem x hy)] at hnodup
        exact (List.nodup_cons.mp hnodup).1 hy
      subst hnil
      exact Or.inr ⟨x.1, x.2, rfl, hother x List.mem_cons_self⟩

theorem undecided (h : (atomicSys (atomicMachine A E τ)).Reach (Candidates a (s.value a)) s pl)
    (hnil : exchanges a pl.view.trace = []) : Undecided a (s.value a) pl := by
  have hinv := inv_of_reach (h.mono fun _ _ _ hok => hok.1)
  refine ⟨?_, ?_, ?_⟩
  · have hhands := hinv.hands
    unfold Hands at hhands
    rw [hnil] at hhands
    exact Eq.symm hhands
  · intro t id e d o hcall
    rcases hinv.exchanging t id e d o hcall with hahead | ⟨w, hreturning⟩
    · exact hahead.prog
    · exact absurd hnil hreturning.answered.exchanges_ne
  · intro id t e d o x hret
    obtain ⟨w, -, hanswered⟩ := hinv.returned id t e d o x hret
    exact hanswered.exchanges_ne hnil

theorem elected (h : (atomicSys (atomicMachine A E τ)).Reach (Candidates a (s.value a)) s pl)
    {winner : Nat} {y : Int32} (htr : exchanges a pl.view.trace = [(winner, y)])
    (hy : y ≠ s.value a) : Elected a (s.value a) pl winner := by
  have hinv := inv_of_reach (h.mono fun _ _ _ hok => hok.1)
  have hvalue : pl.view.shared.value a = y := by
    have hhands := hinv.hands
    unfold Hands at hhands
    rw [htr] at hhands
    exact hhands.2.symm
  subst hvalue
  have hanswer : ∀ {id t e d o w},
      Answered a (s.value a) (fun _ => s.value a) pl.view.trace id t e d o w →
        (w = s.value a ↔ id = winner) := by
    intro id t e d o w hanswered
    rw [hanswered.found htr]
    by_cases hid : id = winner
    · simp [hid]
    · simp [hid, hy]
  refine ⟨htr, hy, ?_, ?_, ?_⟩
  · exact exchange_wanted h (htr ▸ List.mem_singleton_self _)
  · intro id t e d o x hret
    obtain ⟨w, rfl, hanswered⟩ := hinv.returned id t e d o x hret
    simp only [hanswer hanswered]
  · intro t id e d o x hcall hprog
    obtain ⟨rfl, hanswered⟩ := hinv.objects hcall hprog
    refine ⟨?_, hanswered.found htr⟩
    simp only [hanswer hanswered]

end Election

end Exchange

/--
**Compare-exchange elects one call.**  Any number of threads call the functions of
`tt_atomic.h`, on an atomic that was initialised to `v` and on others, and write that
one by `tt_atomic_compare_exchange` only, each time from `v`, to another value, and with
an object that no call in progress has.  Until the first of these calls has performed
its builtin the atomic holds `v` and none has returned.  From then on it holds what that
call wanted, whatever the threads do; that call answers `true`, and every other one
answers `false` and returns with the winner's value in its object.
-/
theorem ttAtomic_election {A E τ : Type} [DecidableEq A] [DecidableEq E] [DecidableEq τ] {a : A}
    {v : Int32} {s₀ s : AtomicMem A E} (hinit : ttAtomicInit (some a) v s₀ = (.success, s))
    {pl : Exchange.ExchangePool A E τ}
    (h : (atomicSys (atomicMachine A E τ)).Reach (Exchange.Candidates a v) s pl) :
    (Exchange.Undecided a v pl ∨ ∃ winner, Exchange.Elected a v pl winner) ∧
      ∀ winner, Exchange.Elected a v pl winner → ∀ l pl',
        Sys.Allowed (Exchange.Candidates a v) pl.view l →
        (atomicSys (atomicMachine A E τ)).step l pl = some pl' →
        Exchange.Elected a v pl' winner ∧ pl'.view.shared.value a = pl.view.shared.value a := by
  rw [← ttAtomicInit_value hinit] at h ⊢
  refine ⟨?_, ?_⟩
  · rcases Exchange.exchanges_of_reach h with hnil | ⟨winner, y, htr, hy⟩
    · exact Or.inl (Exchange.undecided h hnil)
    · exact Or.inr ⟨winner, Exchange.elected h htr hy⟩
  · intro winner helected l pl' hok hstep
    have h' := h.step l hok hstep
    obtain ⟨ev, htrace⟩ := Sys.step_trace hstep
    -- the exchange that was there is still the only one
    have hsplit : Exchange.exchanges a pl'.view.trace =
        (winner, pl.view.shared.value a) :: Exchange.exchanges a [ev] := by
      rw [htrace, Exchange.exchanges, List.filterMap_append]
      exact congrArg (· ++ _) helected.single
    rcases Exchange.exchanges_of_reach h' with hnil | ⟨winner', y, htr, hy⟩
    · rw [hnil] at hsplit
      cases hsplit
    · obtain ⟨hsame, -⟩ := List.cons.inj (htr.symm.trans hsplit)
      obtain ⟨rfl, rfl⟩ := Prod.mk.inj hsame
      have helected' := Exchange.elected h' htr hy
      refine ⟨helected', ?_⟩
      have hvalue := helected'.single
      rw [htr] at hvalue
      exact (Prod.mk.inj (List.cons.inj hvalue).1).2.symm

/-- Two threads that look at the atomic first and both propose, and one that looks at it last. -/
theorem ttAtomic_election_contended :
    ∃ pl : Exchange.ExchangePool Unit Bool Bool, (∃ winner, Exchange.Elected () 0 pl winner) ∧
      .ret 2 true (.compareExchange (some ()) (some true) 1 .seqCst) (.bool false)
        ∈ pl.view.trace ∧
      .ret 4 true (.load (some ()) .relaxed) (.int 2) ∈ pl.view.trace := by
  have hrun : ((atomicSys (atomicMachine Unit Bool Bool)).run (Exchange.Candidates () 0)
      [.call true (.load (some ()) .relaxed), .call false (.load (some ()) .relaxed),
        .prim false (), .prim true (), .ret true, .ret false,
        .call true (.compareExchange (some ()) (some true) 1 .seqCst),
        .call false (.compareExchange (some ()) (some false) 2 .seqCst),
        .prim false (), .prim true (), .ret true, .ret false,
        .call true (.load (some ()) .relaxed), .prim true (), .ret true]
      (Sys.start ⟨fun _ => 0, fun _ => 0⟩)).isSome = true := rfl
  have hreach := Sys.Reach.run _ .start (Option.some_get hrun).symm
  have hinit : ttAtomicInit (some ()) 0 (⟨fun _ => 0, fun _ => 0⟩ : AtomicMem Unit Bool)
      = (.success, ⟨fun _ => 0, fun _ => 0⟩) := by
    refine Prod.ext rfl ?_
    show AtomicMem.mk _ _ = AtomicMem.mk _ _
    congr 1
  refine ⟨Option.get _ hrun, ?_, List.mem_of_getElem? (i := 10) rfl,
    List.mem_of_getElem? (i := 14) rfl⟩
  rcases (ttAtomic_election hinit hreach).1 with hundecided | helected
  · exact absurd (hundecided.answers 2 true true 1 .seqCst (.bool false))
      (not_not_intro (List.mem_of_getElem? (i := 10) rfl))
  · exact helected

end TinyTools
