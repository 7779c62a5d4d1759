/-
Functions with one critical section each.

A `Locking` says which primitives take a lock, release it, need it, or depend on
nothing that others may change.  A function has the `Shape` this library is about if
it performs free primitives, then at most one critical section, then free primitives.

`Linearizes` says what such functions are to be compared with: a log of calls that is a
sequential execution of the very same functions, in which each call performs the
primitives, gets the answers and returns the value it does in the interleaving.
-/
import TinyTools.Lib.Pool
import Mathlib.Data.List.Nodup

namespace Interleave

/-- How a primitive stands to the lock: performed at any time, taking it, only while holding it,
releasing it, or not used by the functions in question. -/
inductive LockKind : Type
  | free
  | acquire
  | inside
  | release
  | never
  deriving DecidableEq

/-- Where a call stands. -/
inductive Phase : Type
  | before
  | inside
  | after
  deriving DecidableEq

/-- Where a primitive leads, if it is admitted there. -/
def Phase.next : Phase → LockKind → Option Phase
  | .before, .free => some .before
  | .before, .acquire => some .inside
  | .inside, .inside => some .inside
  | .inside, .release => some .after
  | .after, .free => some .after
  | _, _ => none

theorem Phase.next_before {k : LockKind} {ph : Phase} (h : Phase.before.next k = some ph) :
    k = .free ∧ ph = .before ∨ k = .acquire ∧ ph = .inside := by
  cases k with
  | free => exact Or.inl ⟨rfl, (Option.some.inj h).symm⟩
  | acquire => exact Or.inr ⟨rfl, (Option.some.inj h).symm⟩
  | inside | release | never => cases h

theorem Phase.next_inside {k : LockKind} {ph : Phase} (h : Phase.inside.next k = some ph) :
    k = .inside ∧ ph = .inside ∨ k = .release ∧ ph = .after := by
  cases k with
  | inside => exact Or.inl ⟨rfl, (Option.some.inj h).symm⟩
  | release => exact Or.inr ⟨rfl, (Option.some.inj h).symm⟩
  | free | acquire | never => cases h

theorem Phase.next_after {k : LockKind} {ph : Phase} (h : Phase.after.next k = some ph) :
    k = .free ∧ ph = .after := by
  cases k with
  | free => exact ⟨rfl, (Option.some.inj h).symm⟩
  | acquire | inside | release | never => cases h

variable {S : Sig} {τ χ σ κ α β : Type}

/-- A lock that protects the state of a machine. -/
structure Locking (M : Machine S τ χ σ) where
  kind : S.Op → LockKind
  holder : σ → Option τ
  /-- What no critical section changes. -/
  stable : σ → Prop
  /-- The answers a primitive can get in a stable state. -/
  ans : (p : S.Op) → S.Res p → Prop
  sound : ∀ {x t p s r s'}, kind p ≠ .never → stable s → M.exec x t p s = some (r, s') →
    ans p r ∧ stable s' ∧ M.again p r = false
  /-- A free primitive changes nothing and has one answer, the same in every stable state. -/
  free : ∀ {p t}, kind p = .free → ∃ r, ans p r ∧ (∀ r', ans p r' → r' = r) ∧
    ∀ s, stable s → (∃ x, M.exec x t p s = some (r, s)) ∧
      ∀ x r' s', M.exec x t p s = some (r', s') → s' = s
  acquire : ∀ {x t p s r s'}, kind p = .acquire → M.exec x t p s = some (r, s') →
    holder s = none ∧ holder s' = some t
  inside : ∀ {x t p s r s'}, kind p = .inside → M.exec x t p s = some (r, s') →
    holder s' = holder s
  release : ∀ {x t p s r s'}, kind p = .release → M.exec x t p s = some (r, s') →
    holder s = some t → holder s' = none

namespace Locking

variable {M : Machine S τ χ σ} (K : Locking M)

/-- Free primitives, at most one critical section, free primitives. -/
def Shape : Phase → Prog S α → Prop
  | ph, .ret _ => ph ≠ .inside
  | ph, .step p k => ∃ ph', ph.next (K.kind p) = some ph' ∧ ∀ r, K.ans p r → Shape ph' (k r)

/-- Every primitive of the program needs the lock. -/
def Within : Prog S α → Prop
  | .ret _ => True
  | .step p k => K.kind p = .inside ∧ ∀ r, Within (k r)

variable {K}

theorem Within.seq {m : Prog S α} {f : α → Prog S β} (hm : K.Within m)
    (hf : ∀ a, K.Within (f a)) : K.Within (m >>= f) := by
  induction m with
  | ret a => exact hf a
  | step p k ih =>
      obtain ⟨hp, hk⟩ := hm
      exact ⟨hp, fun r => ih r (hk r)⟩

theorem Within.bind {m : Prog S α} {f : α → Prog S β} (hm : K.Within m)
    (hf : ∀ a, K.Shape .inside (f a)) : K.Shape .inside (m >>= f) := by
  induction m with
  | ret a => exact hf a
  | step p k ih =>
      obtain ⟨hp, hk⟩ := hm
      refine ⟨.inside, by rw [hp]; rfl, ?_⟩
      intro r _
      exact ih r (hk r)

/-- After its section a call comes to one value, whatever the others do. -/
theorem run_of_after {t : τ} {m : Prog S α} (hm : K.Shape .after m) :
    ∃ es a, ∀ s, K.stable s → M.Run t m s es a s := by
  induction m with
  | ret a => exact ⟨[], a, fun s _ => .ret a s⟩
  | step p k ih =>
      obtain ⟨ph, hnext, hk⟩ := hm
      obtain ⟨hp, rfl⟩ := Phase.next_after hnext
      obtain ⟨r, hr, -, hexec⟩ := K.free (t := t) hp
      obtain ⟨es, a, hrun⟩ := ih r (hk r hr)
      refine ⟨⟨p, r⟩ :: es, a, ?_⟩
      intro s hs
      obtain ⟨x, hx⟩ := (hexec s hs).1
      have hnever : K.kind p ≠ .never := by
        rw [hp]
        decide
      exact .step x hx (K.sound hnever hs hx).2.2 (hrun s hs)

/-- A run that starts with a free primitive goes on from where it was. -/
theorem run_step_free {t : τ} {p : S.Op} {k : S.Res p → Prog S α} {s s' : σ} {es : List S.Done}
    {a : α} (hp : K.kind p = .free) (hs : K.stable s) (h : M.Run t (.step p k) s es a s') :
    ∃ r es', K.ans p r ∧ es = ⟨p, r⟩ :: es' ∧ M.Run t (k r) s es' a s' := by
  have hnever : K.kind p ≠ .never := by
    rw [hp]
    decide
  obtain ⟨_, -, -, hall⟩ := K.free (t := t) hp
  cases h with
  | step x hexec _ hrest =>
      have hsame := (hall s hs).2 x _ _ hexec
      rw [hsame] at hrest
      exact ⟨_, _, (K.sound hnever hs hexec).1, rfl, hrest⟩
  | again x hexec hagain _ =>
      rw [(K.sound hnever hs hexec).2.2] at hagain
      cases hagain

end Locking

/-! ### Sequential executions -/

/-- A call with everything it did. -/
structure LogEntry (S : Sig) (τ κ α : Type) where
  id : Nat
  thread : τ
  call : κ
  done : List S.Done
  val : α

/-- The calls of the log, executed one after the other. -/
inductive Sequential (S' : Sys S τ χ σ κ α) (s₀ : σ) : List (LogEntry S τ κ α) → σ → Prop
  | nil : Sequential S' s₀ [] s₀
  | snoc {L : List (LogEntry S τ κ α)} {s s' : σ} {e : LogEntry S τ κ α}
      (h : Sequential S' s₀ L s)
      (hrun : S'.Run e.thread (S'.body e.call) s e.done e.val s') : Sequential S' s₀ (L ++ [e]) s'

/-- Call `a` had returned before call `b` started. -/
def Precedes (tr : List (Event S τ κ α)) (a b : Nat) : Prop :=
  At tr fun tr₁ e => (∃ t c, e = .call b t c) ∧ ∃ t c v, .ret a t c v ∈ tr₁

/-- The calls that took the lock, in the order in which they did. -/
def acquired {M : Machine S τ χ σ} (K : Locking M) (tr : List (Event S τ κ α)) : List Nat :=
  tr.filterMap fun
    | .prim id _ p _ => if K.kind p = .acquire then some id else none
    | _ => none

/-- `L` is a sequential execution from `s₀` to `s` that the calls of the trace cannot be told
from: same values, same primitives with the same answers, in an order that respects real time.
Calls left out have not returned, or have returned without taking the lock, and then as they
would have in any state. -/
structure Linearizes (S' : Sys S τ χ σ κ α) (K : Locking S'.toMachine) (s₀ : σ)
    (tr : List (Event S τ κ α)) (L : List (LogEntry S τ κ α)) (s : σ) : Prop where
  legal : Sequential S' s₀ L s
  nodup : (L.map LogEntry.id).Nodup
  called : ∀ e ∈ L, .call e.id e.thread e.call ∈ tr
  realTime : ∀ e₁ ∈ L, ∀ e₂ ∈ L, Precedes tr e₁.id e₂.id → [e₁, e₂].Sublist L
  returned : ∀ id t c a, .ret id t c a ∈ tr → ⟨id, t, c, prims tr id, a⟩ ∈ L ∨
    (∀ d ∈ prims tr id, K.kind d.1 = .free) ∧
      ∀ s, K.stable s → S'.Run t (S'.body c) s (prims tr id) a s

/-! ### Growing traces -/

section Traces

variable {M : Machine S τ χ σ} {K : Locking M} {tr : List (Event S τ κ α)}

theorem precedes_call {id a b : Nat} {t : τ} {c : κ} :
    Precedes (tr ++ [.call id t c]) a b ↔
      Precedes tr a b ∨ b = id ∧ ∃ t c v, .ret a t c v ∈ tr := by
  unfold Precedes
  rw [At.snoc_iff]
  refine or_congr_right ⟨?_, ?_⟩
  · rintro ⟨⟨t', c', he⟩, hret⟩
    cases he
    exact ⟨rfl, hret⟩
  · rintro ⟨rfl, hret⟩
    exact ⟨⟨t, c, rfl⟩, hret⟩

theorem precedes_prim {id a b : Nat} {t : τ} {p : S.Op} {r : S.Res p} :
    Precedes (tr ++ [.prim id t p r]) a b ↔ Precedes tr a b := by
  unfold Precedes
  rw [At.snoc_iff]
  refine or_iff_left ?_
  rintro ⟨⟨t', c', he⟩, -⟩
  cases he

theorem precedes_ret {id a b : Nat} {t : τ} {c : κ} {v : α} :
    Precedes (tr ++ [.ret id t c v]) a b ↔ Precedes tr a b := by
  unfold Precedes
  rw [At.snoc_iff]
  refine or_iff_left ?_
  rintro ⟨⟨t', c', he⟩, -⟩
  cases he

/-- A call that is preceded by another has started, and the other has returned. -/
theorem Precedes.events {a b : Nat} (h : Precedes tr a b) :
    (∃ t c, .call b t c ∈ tr) ∧ ∃ t c v, .ret a t c v ∈ tr := by
  obtain ⟨tr₁, e, tr₂, rfl, ⟨t, c, rfl⟩, t', c', v, hret⟩ := h
  exact ⟨⟨t, c, by simp⟩, t', c', v, by simp [hret]⟩

@[simp] theorem acquired_call (id : Nat) (t : τ) (c : κ) :
    acquired K (tr ++ [.call id t c]) = acquired K tr := by
  simp [acquired]

@[simp] theorem acquired_ret (id : Nat) (t : τ) (c : κ) (a : α) :
    acquired K (tr ++ [.ret id t c a]) = acquired K tr := by
  simp [acquired]

theorem acquired_prim (id : Nat) (t : τ) (p : S.Op) (r : S.Res p) :
    acquired K (tr ++ [.prim id t p r])
      = acquired K tr ++ if K.kind p = .acquire then [id] else [] := by
  by_cases hp : K.kind p = .acquire
  · simp [acquired, hp]
  · simp [acquired, hp]

end Traces

namespace Linearizes

variable {S' : Sys S τ χ σ κ α} {K : Locking S'.toMachine} {s₀ s s' : σ}
  {v : View S τ σ κ α} {L : List (LogEntry S τ κ α)} {t : τ} {id : Nat} {c : κ}

theorem snoc_call (h : Linearizes S' K s₀ v.trace L s) (hb : Books v) (t : τ) (c : κ) :
    Linearizes S' K s₀ (v.trace ++ [.call v.next t c]) L s := by
  refine ⟨h.legal, h.nodup, ?_, ?_, ?_⟩
  · intro e he
    exact List.mem_append_left _ (h.called e he)
  · intro e₁ he₁ e₂ he₂ hpre
    rcases precedes_call.mp hpre with hpre | ⟨hid, -⟩
    · exact h.realTime e₁ he₁ e₂ he₂ hpre
    · -- the new call is in no log
      have hlt := hb.called_below _ _ _ (h.called e₂ he₂)
      omega
  · intro id t' c' a hret
    rw [prims_snoc_call]
    exact h.returned id t' c' a (by simpa using hret)

theorem snoc_prim (h : Linearizes S' K s₀ v.trace L s) (hb : Books v)
    (hc : v.calls t = some (id, c)) (p : S.Op) (r : S.Res p) :
    Linearizes S' K s₀ (v.trace ++ [.prim id t p r]) L s := by
  refine ⟨h.legal, h.nodup, ?_, ?_, ?_⟩
  · intro e he
    exact List.mem_append_left _ (h.called e he)
  · intro e₁ he₁ e₂ he₂ hpre
    exact h.realTime e₁ he₁ e₂ he₂ (precedes_prim.mp hpre)
  · intro id' t' c' a hret
    have hold : .ret id' t' c' a ∈ v.trace := by simpa using hret
    have hne : id ≠ id' := by
      rintro rfl
      exact hb.pending t id c t' c' a hc hold
    rw [prims_snoc_of_ne _ hne]
    exact h.returned id' t' c' a hold

/-- A call whose section is complete joins the log. -/
theorem append (h : Linearizes S' K s₀ v.trace L s) (hb : Books v)
    (hc : v.calls t = some (id, c)) (hnew : ∀ e ∈ L, e.id ≠ id) {es : List S.Done} {a : α}
    (hrun : S'.Run t (S'.body c) s es a s') :
    Linearizes S' K s₀ v.trace (L ++ [⟨id, t, c, es, a⟩]) s' := by
  have hpending : ∀ b, ¬ Precedes v.trace id b := by
    intro b hpre
    obtain ⟨-, t', c', a', hret⟩ := hpre.events
    exact hb.pending t id c t' c' a' hc hret
  refine ⟨.snoc h.legal hrun, ?_, ?_, ?_, ?_⟩
  · rw [List.map_append, List.nodup_append]
    refine ⟨h.nodup, by simp, ?_⟩
    intro a₁ ha₁ a₂ ha₂
    obtain ⟨e, he, rfl⟩ := List.mem_map.mp ha₁
    have ha₂' : a₂ = id := by simpa using ha₂
    rw [ha₂']
    exact hnew e he
  · intro e he
    rcases List.mem_append.mp he with heL | hnew
    · exact h.called e heL
    · rw [List.mem_singleton.mp hnew]
      exact hb.called t id c hc
  · intro e₁ he₁ e₂ he₂ hpre
    rcases List.mem_append.mp he₁ with he₁L | he₁new
    · rcases List.mem_append.mp he₂ with he₂L | he₂new
      · exact (h.realTime e₁ he₁L e₂ he₂L hpre).trans (List.sublist_append_left L _)
      · rw [List.mem_singleton.mp he₂new]
        exact (List.singleton_sublist.mpr he₁L).append (List.Sublist.refl _)
    · rw [List.mem_singleton.mp he₁new] at hpre
      exact absurd hpre (hpending _)
  · intro id' t' c' a' hret
    rcases h.returned id' t' c' a' hret with hmem | hfree
    · exact Or.inl (List.mem_append_left _ hmem)
    · exact Or.inr hfree

theorem snoc_ret (h : Linearizes S' K s₀ v.trace L s) {a : α}
    (hret : ⟨id, t, c, prims v.trace id, a⟩ ∈ L ∨
      (∀ d ∈ prims v.trace id, K.kind d.1 = .free) ∧
        ∀ s, K.stable s → S'.Run t (S'.body c) s (prims v.trace id) a s) :
    Linearizes S' K s₀ (v.trace ++ [.ret id t c a]) L s := by
  refine ⟨h.legal, h.nodup, ?_, ?_, ?_⟩
  · intro e he
    exact List.mem_append_left _ (h.called e he)
  · intro e₁ he₁ e₂ he₂ hpre
    exact h.realTime e₁ he₁ e₂ he₂ (precedes_ret.mp hpre)
  · intro id' t' c' a' hmem
    rw [prims_snoc_ret]
    rcases List.mem_append.mp hmem with hold | hnew
    · exact h.returned id' t' c' a' hold
    · have hev : id' = id ∧ t' = t ∧ c' = c ∧ a' = a := by simpa using hnew
      obtain ⟨rfl, rfl, rfl, rfl⟩ := hev
      exact hret

end Linearizes

end Interleave
