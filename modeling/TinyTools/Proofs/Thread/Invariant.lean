/-
Who owns a thread record.

A record is made by `tt_thread_create`, which alone knows it until it has registered
it and stored it in the client's variable; from then on it belongs to the table, until
the one `tt_thread_destroy` in progress on it has taken it out and frees it.  Nothing
in the table functions enforces this, as `tt_thread_table_register` looks at neither
the record nor the other slots: it is the order in which create and destroy do their
steps, and that the clients stop using a record once they have started to destroy it.

What the joins do to `state` and `is_active` plays no part.  A join that is still
running when its record is destroyed may even write to freed memory.
-/
import TinyTools.Lib.Outline
import TinyTools.Proofs.Thread.Records

namespace TinyTools

open Interleave

namespace Thread

variable {N : Nat} {H τ : Type}

/-! ### The invariant -/

/-- What a thread is doing with a record. -/
inductive Ghost : Type
  | idle
  /-- In create: the record is allocated; its thread is started; it is registered. -/
  | making (a : Addr)
  | started (a : Addr)
  | registered (a : Addr)
  /-- In destroy: before the record is taken out of the table, and after that. -/
  | closing (a : Addr)
  | removed (a : Addr)

/-- The record a thread is making or destroying. -/
def Ghost.owns : Ghost → Option Addr
  | .idle => none
  | .making a | .started a | .registered a | .closing a | .removed a => some a

/-- What a ghost says of its record. -/
def Knows (v : ThreadView N H τ) (t : τ) : Ghost → Prop
  | .idle => True
  | .making a => v.shared.mem a ≠ none ∧ ¬ InTable v.shared a
  | .started a => Stored v.shared a ∧ ¬ InTable v.shared a
  | .registered a => InTable v.shared a
  | .closing a => ledger v.trace a = .destroying ∧ (InTable v.shared a ∨ Lost v.trace a) ∧
      ∃ id, Destroying v t a id
  | .removed a => ledger v.trace a = .destroying ∧ v.shared.mem a ≠ none ∧
      ¬ InTable v.shared a ∧ ∃ id, Destroying v t a id ∧
        .prim id t (.inr (.unregister (some a))) .success ∈ v.trace

structure Inv (v : ThreadView N H τ) (G : τ → Ghost) : Prop where
  sound : Sound v.shared
  knows : ∀ t, Knows v t (G t)
  exclusive : Outline.Exclusive Ghost.owns G
  handed : ∀ a, ledger v.trace a = .handed → (InTable v.shared a ∨ Lost v.trace a) ∧
    ∀ t, (G t).owns ≠ some a
  destroying : ∀ a, ledger v.trace a = .destroying → ∃ t, G t = .closing a ∨ G t = .removed a
  /-- A lost record stays allocated and out of the table, and at most a destroy that will not
  find it there is working on it. -/
  lost : ∀ a, Lost v.trace a → v.shared.mem a ≠ none ∧ ¬ InTable v.shared a ∧
    ∀ t, (G t).owns = some a → G t = .closing a

def outline (N : Nat) (H τ : Type) :
    Outline (threadSig H) τ (ThreadState N H) (ThreadCall H) TableVal Ghost where
  idle g := g = .idle
  inv := Inv

/-- Events other than returns do not lose records. -/
theorem lost_snoc {tr : List (ThreadEvent H τ)} {e : ThreadEvent H τ} {a : Addr}
    (he : ∀ id t, e ≠ .ret id t (.destroy (some a)) (.err .threadDetach)) :
    Lost (tr ++ [e]) a ↔ Lost tr a := by
  refine ⟨?_, ?_⟩
  · rintro ⟨id, t, h⟩
    rcases List.mem_append.mp h with h' | h'
    · exact ⟨id, t, h'⟩
    · exact absurd (List.mem_singleton.mp h').symm (he id t)
  · rintro ⟨id, t, h⟩
    exact ⟨id, t, List.mem_append_left _ h⟩

/-- A ghost's record is allocated. -/
theorem Inv.mem_of_owns {v : ThreadView N H τ} {G : τ → Ghost} (h : Inv v G) {t : τ} {a : Addr}
    (ha : (G t).owns = some a) : v.shared.mem a ≠ none := by
  have hk := h.knows t
  cases hg : G t with
  | idle =>
      rw [hg] at ha
      cases ha
  | making b =>
      rw [hg] at ha hk
      cases ha
      exact hk.1
  | started b =>
      rw [hg] at ha hk
      cases ha
      exact hk.1.mem
  | registered b =>
      rw [hg] at ha hk
      cases ha
      exact (InTable.stored h.sound hk).mem
  | closing b =>
      rw [hg] at ha hk
      cases ha
      rcases hk.2.1 with hin | hlost
      · exact (hin.stored h.sound).mem
      · exact (h.lost _ hlost).1
  | removed b =>
      rw [hg] at ha hk
      cases ha
      exact hk.2.1

/-- An address that is not allocated is nobody's. -/
theorem Inv.not_owned {v : ThreadView N H τ} {G : τ → Ghost} (h : Inv v G) {a : Addr}
    (hnone : v.shared.mem a = none) :
    ¬ InTable v.shared a ∧ ¬ Lost v.trace a ∧ (∀ t, (G t).owns ≠ some a) ∧
      ledger v.trace a = .unknown := by
  have hin : ¬ InTable v.shared a := fun hin => (hin.stored h.sound).mem hnone
  have hlost : ¬ Lost v.trace a := fun hlost => (h.lost a hlost).1 hnone
  have howns : ∀ t, (G t).owns ≠ some a := fun t ht => h.mem_of_owns ht hnone
  refine ⟨hin, hlost, howns, ?_⟩
  cases hst : ledger v.trace a with
  | unknown => rfl
  | handed =>
      rcases (h.handed a hst).1 with hin' | hlost'
      · exact absurd hin' hin
      · exact absurd hlost' hlost
  | destroying =>
      obtain ⟨t, ht | ht⟩ := h.destroying a hst
      · exact absurd (by rw [ht]; rfl) (howns t)
      · exact absurd (by rw [ht]; rfl) (howns t)

/-- What a ghost says survives whatever leaves its own record alone. -/
theorem Knows.transfer {v v' : ThreadView N H τ} {t : τ} {g : Ghost} (h : Knows v t g)
    (htrace : ∀ e, e ∈ v.trace → e ∈ v'.trace)
    (hkeeps : ∀ a, g.owns = some a → Keeps v.shared v'.shared a ∧
      ledger v'.trace a = ledger v.trace a ∧ (Lost v.trace a → Lost v'.trace a) ∧
      ∀ id, Destroying v t a id → Destroying v' t a id) : Knows v' t g := by
  cases g with
  | idle => trivial
  | making a =>
      obtain ⟨hk, -⟩ := hkeeps a rfl
      exact ⟨hk.mem h.1, fun hin => h.2 (hk.inTable.mp hin)⟩
  | started a =>
      obtain ⟨hk, -⟩ := hkeeps a rfl
      exact ⟨hk.stored h.1, fun hin => h.2 (hk.inTable.mp hin)⟩
  | registered a => exact (hkeeps a rfl).1.inTable.mpr h
  | closing a =>
      obtain ⟨hk, hledger, hlost, hdestroying⟩ := hkeeps a rfl
      obtain ⟨hst, hin, id, hid⟩ := h
      exact ⟨hledger.trans hst, hin.imp hk.inTable.mpr hlost, id, hdestroying id hid⟩
  | removed a =>
      obtain ⟨hk, hledger, -, hdestroying⟩ := hkeeps a rfl
      obtain ⟨hst, hmem, hin, id, hid, hout⟩ := h
      exact ⟨hledger.trans hst, hk.mem hmem, fun hin' => hin (hk.inTable.mp hin'), id,
        hdestroying id hid, htrace _ hout⟩

/-- A step that changes nothing any ghost speaks of. -/
theorem Inv.keep {v v' : ThreadView N H τ} {G : τ → Ghost} (h : Inv v G) (hsound : Sound v'.shared)
    (htrace : ∀ e, e ∈ v.trace → e ∈ v'.trace)
    (hkeeps : ∀ a, Keeps v.shared v'.shared a)
    (hledger : ∀ a, ledger v'.trace a = ledger v.trace a)
    (hlost : ∀ a, Lost v'.trace a ↔ Lost v.trace a)
    (hdestroying : ∀ t a id, (G t).owns = some a → Destroying v t a id → Destroying v' t a id) :
    Inv v' G := by
  refine ⟨hsound, ?_, h.exclusive, ?_, ?_, ?_⟩
  · intro t
    exact (h.knows t).transfer htrace fun a ha =>
      ⟨hkeeps a, hledger a, (hlost a).mpr, fun id => hdestroying t a id ha⟩
  · intro a hst
    rw [hledger a] at hst
    obtain ⟨hin, hnone⟩ := h.handed a hst
    exact ⟨hin.imp (hkeeps a).inTable.mpr (hlost a).mpr, hnone⟩
  · intro a hst
    rw [hledger a] at hst
    exact h.destroying a hst
  · intro a ha
    obtain ⟨hmem, hin, hclosing⟩ := h.lost a ((hlost a).mp ha)
    exact ⟨(hkeeps a).mem hmem, fun h' => hin ((hkeeps a).inTable.mp h'), hclosing⟩

/-- A step of `t` that concerns the record at `a` alone, which is its own or nobody's. -/
theorem Inv.focus [DecidableEq τ] {v v' : ThreadView N H τ} {G : τ → Ghost} (h : Inv v G) {t : τ}
    {g : Ghost} {a : Addr} (hsound : Sound v'.shared) (htrace : ∀ e, e ∈ v.trace → e ∈ v'.trace)
    (hkeeps : ∀ b, b ≠ a → Keeps v.shared v'.shared b)
    (hledger : ∀ b, b ≠ a → ledger v'.trace b = ledger v.trace b)
    (hlost : ∀ b, b ≠ a → (Lost v'.trace b ↔ Lost v.trace b))
    (hother : ∀ u b id, u ≠ t → Destroying v u b id → Destroying v' u b id)
    (hmine : ∀ u, u ≠ t → (G u).owns ≠ some a) (hbefore : ∀ b, (G t).owns = some b → b = a)
    (hafter : ∀ b, g.owns = some b → b = a) (hknows : Knows v' t g)
    (hhanded : ledger v'.trace a = .handed →
      (InTable v'.shared a ∨ Lost v'.trace a) ∧ g = .idle)
    (hdestroying : ledger v'.trace a = .destroying → g = .closing a ∨ g = .removed a)
    (hself : Lost v'.trace a → v'.shared.mem a ≠ none ∧ ¬ InTable v'.shared a ∧
      (g.owns = some a → g = .closing a)) :
    Inv v' (Function.update G t g) := by
  have howner : ∀ u b, (Function.update G t g u).owns = some b →
      (u = t ∧ b = a ∧ g.owns = some a) ∨ (u ≠ t ∧ b ≠ a ∧ (G u).owns = some b) :=
    fun u b => Outline.owns_update hmine hafter
  refine ⟨hsound, ?_, h.exclusive.update hmine hafter, ?_, ?_, ?_⟩
  · refine (Function.forall_update_iff _ _).mpr ⟨hknows, fun u hu => ?_⟩
    refine (h.knows u).transfer htrace fun b hb => ?_
    have hba : b ≠ a := by
      intro hba
      subst hba
      exact hmine u hu hb
    exact ⟨hkeeps b hba, hledger b hba, (hlost b hba).mpr, fun id => hother u b id hu⟩
  · intro b hst
    by_cases hb : b = a
    · subst hb
      obtain ⟨hin, hidle⟩ := hhanded hst
      refine ⟨hin, fun u hu => ?_⟩
      rcases howner u b hu with ⟨-, -, howns⟩ | ⟨-, hb, -⟩
      · rw [hidle] at howns
        cases howns
      · exact hb rfl
    · rw [hledger b hb] at hst
      obtain ⟨hin, hnone⟩ := h.handed b hst
      refine ⟨hin.imp (hkeeps b hb).inTable.mpr (hlost b hb).mpr, fun u hu => ?_⟩
      rcases howner u b hu with ⟨-, hba, -⟩ | ⟨-, -, hu'⟩
      · exact hb hba
      · exact hnone u hu'
  · intro b hst
    by_cases hb : b = a
    · subst hb
      refine ⟨t, ?_⟩
      rw [Function.update_self]
      exact hdestroying hst
    · rw [hledger b hb] at hst
      obtain ⟨u, hu⟩ := h.destroying b hst
      have hut : u ≠ t := by
        intro hut
        subst hut
        rcases hu with hu | hu
        · exact hb (hbefore b (by rw [hu]; rfl))
        · exact hb (hbefore b (by rw [hu]; rfl))
      refine ⟨u, ?_⟩
      rw [Function.update_of_ne hut]
      exact hu
  · intro b hb'
    by_cases hb : b = a
    · subst hb
      obtain ⟨hmem, hin, hclosing⟩ := hself hb'
      refine ⟨hmem, hin, fun u hu => ?_⟩
      rcases howner u b hu with ⟨rfl, -, howns⟩ | ⟨-, hb, -⟩
      · rw [Function.update_self]
        exact hclosing howns
      · exact absurd rfl hb
    · obtain ⟨hmem, hin, hclosing⟩ := h.lost b ((hlost b hb).mp hb')
      refine ⟨(hkeeps b hb).mem hmem, fun h' => hin ((hkeeps b hb).inTable.mp h'), fun u hu => ?_⟩
      rcases howner u b hu with ⟨-, hba, -⟩ | ⟨hut, -, hu'⟩
      · exact absurd hba hb
      · rw [Function.update_of_ne hut]
        exact hclosing u hu'

/-- A primitive that concerns the record at `a` alone, which is not lost. -/
theorem Inv.onRecord [DecidableEq τ] {v : ThreadView N H τ} {G : τ → Ghost} (h : Inv v G)
    {id : Nat} {t : τ} {p : (threadSig H).Op} {r : (threadSig H).Res p} {s : ThreadState N H}
    {g : Ghost} {a : Addr} (hsound : Sound s) (hkeeps : ∀ b, b ≠ a → Keeps v.shared s b)
    (hledger : ∀ b, b ≠ a →
      ledgerStep b (ledger v.trace b) (.prim id t p r : ThreadEvent H τ) = ledger v.trace b)
    (hmine : ∀ u, u ≠ t → (G u).owns ≠ some a) (hbefore : ∀ b, (G t).owns = some b → b = a)
    (hafter : ∀ b, g.owns = some b → b = a) (hlost : ¬ Lost v.trace a)
    (hknows : Knows (v.prim id t p r s) t g)
    (hhanded : ledgerStep a (ledger v.trace a) (.prim id t p r : ThreadEvent H τ) = .handed →
      InTable s a ∧ g = .idle)
    (hdestroying : ledgerStep a (ledger v.trace a) (.prim id t p r : ThreadEvent H τ) =
      .destroying → g = .closing a ∨ g = .removed a) :
    Inv (v.prim id t p r s) (Function.update G t g) := by
  have hlostiff : ∀ b, Lost (v.prim id t p r s).trace b ↔ Lost v.trace b :=
    fun b => lost_snoc fun _ _ => nofun
  have hself : ledger (v.prim id t p r s).trace a =
      ledgerStep a (ledger v.trace a) (.prim id t p r) := ledger_snoc _ _ _
  refine h.focus hsound (fun _ => List.mem_append_left _) hkeeps ?_ (fun b _ => hlostiff b) ?_ hmine
    hbefore hafter hknows ?_ ?_ ?_
  · intro b hb
    rw [View.prim_trace, ledger_snoc]
    exact hledger b hb
  · intro u b id' hu hdestroying'
    exact hdestroying'.prim (Or.inl hu)
  · intro hst
    obtain ⟨hin, hidle⟩ := hhanded (hself.symm.trans hst)
    exact ⟨Or.inl hin, hidle⟩
  · intro hst
    exact hdestroying (hself.symm.trans hst)
  · intro hl
    exact absurd ((hlostiff a).mp hl) hlost

/-- A primitive that leaves the table, what is allocated and all handles alone. -/
theorem Inv.quiet {v : ThreadView N H τ} {G : τ → Ghost} (h : Inv v G) {id : Nat} {t : τ}
    {p : (threadSig H).Op} {r : (threadSig H).Res p} {s : ThreadState N H}
    (htable : s.table = v.shared.table) (hmem : ∀ a, v.shared.mem a ≠ none → s.mem a ≠ none)
    (hstored : ∀ a, Stored v.shared a → Stored s a) (happart : s.os.Pairwise Apart)
    (hfree : ∀ a, p ≠ .inl (.free a)) (hledger : ∀ a,
      ledgerStep a (ledger v.trace a) (.prim id t p r : ThreadEvent H τ) = ledger v.trace a) :
    Inv (v.prim id t p r s) G := by
  refine h.keep ?_ (fun _ => List.mem_append_left _) (fun a => .of_table htable (hmem a) (hstored a))
    ?_ ?_ ?_
  · refine ⟨?_, ?_, ?_, happart⟩
    · intro i hi
      rw [View.prim_shared, htable] at hi ⊢
      obtain ⟨a, ha, hst⟩ := h.sound.slots i hi
      exact ⟨a, ha, hstored a hst⟩
    · rw [View.prim_shared, htable]
      exact h.sound.free
    · rw [View.prim_shared, htable]
      exact h.sound.once
  · intro a
    rw [View.prim_trace, ledger_snoc]
    exact hledger a
  · intro a
    exact lost_snoc fun _ _ => nofun
  · intro u a id' _ hdestroying
    exact hdestroying.prim (Or.inr hfree)

end Thread

end TinyTools
