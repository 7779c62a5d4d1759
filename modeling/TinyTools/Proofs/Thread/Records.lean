/-
Thread records, as the clients see them and as the state has them.

What the clients may pass to a call is decided by what they have seen, so it is read
off the trace: a record is theirs from the moment create stores it in their variable
until a destroy of it has begun, and again if that destroy fails.

The rest is about one state.  `Sound` is what holds of the table and the handles in
every state, `Keeps` what a step on one record does to the others.
-/
import Mathlib.Data.List.Pairwise
import TinyTools.Thread

namespace TinyTools

open Interleave

namespace Thread

variable {N : Nat} {H τ : Type}

abbrev ThreadEvent (H τ : Type) := Event (threadSig H) τ (ThreadCall H) TableVal

abbrev ThreadView (N : Nat) (H τ : Type) :=
  View (threadSig H) τ (ThreadState N H) (ThreadCall H) TableVal

/-! ### What the clients know -/

/-- What has become of the record at an address: nothing the clients know of, a create has
handed it out, a destroy of it is in progress. -/
inductive RecordStatus : Type
  | unknown
  | handed
  | destroying
  deriving DecidableEq

/-- One event, as it changes the status of the record at `a`. -/
def ledgerStep (a : Addr) (st : RecordStatus) : ThreadEvent H τ → RecordStatus
  | .prim _ _ (.inl (.writeVar _ p)) _ => if p = a then .handed else st
  | .prim _ _ (.inl (.free p)) _ => if p = a then .unknown else st
  | .call _ _ (.destroy thread) => if thread = some a then .destroying else st
  | .ret _ _ (.destroy thread) result =>
      if thread = some a ∧ result ≠ .err .success then .handed else st
  | _ => st

def ledger (tr : List (ThreadEvent H τ)) (a : Addr) : RecordStatus :=
  tr.foldl (ledgerStep a) .unknown

@[simp] theorem ledger_nil (a : Addr) : ledger ([] : List (ThreadEvent H τ)) a = .unknown := rfl

@[simp] theorem ledger_snoc (tr : List (ThreadEvent H τ)) (e : ThreadEvent H τ) (a : Addr) :
    ledger (tr ++ [e]) a = ledgerStep a (ledger tr a) e := by
  simp [ledger]

/-- The clients' promise: one `tt_thread_init` before the run, and no call on a record but one
that was handed out and of which no destroy is in progress or has succeeded. -/
def Owned (v : ThreadView N H τ) (_ : τ) : ThreadCall H → Prop
  | .init => False
  | .join (some a) | .destroy (some a) => ledger v.trace a = .handed
  | .join none | .destroy none | .create _ _ _ _ | .findByHandle _ => True

instance (v : ThreadView N H τ) (t : τ) (c : ThreadCall H) : Decidable (Owned v t c) :=
  match c with
  | .init => inferInstanceAs (Decidable False)
  | .join (some a) | .destroy (some a) =>
      inferInstanceAs (Decidable (ledger v.trace a = .handed))
  | .join none | .destroy none | .create _ _ _ _ | .findByHandle _ =>
      inferInstanceAs (Decidable True)

/-- A destroy of the record at `a` has returned `TT_ERROR_THREAD_DETACH`. -/
def Lost (tr : List (ThreadEvent H τ)) (a : Addr) : Prop :=
  ∃ id t, .ret id t (.destroy (some a)) (.err .threadDetach) ∈ tr

/-- In call `id`, `t` is destroying the record at `a` and has not freed it yet. -/
def Destroying (v : ThreadView N H τ) (t : τ) (a : Addr) (id : Nat) : Prop :=
  v.calls t = some (id, .destroy (some a)) ∧ .prim id t (.inl (.free a)) () ∉ v.trace

/-- A destroy of the record at `a` is between unregistering and freeing it. -/
def TakenOut (v : ThreadView N H τ) (a : Addr) : Prop :=
  ∃ t id, Destroying v t a id ∧ .prim id t (.inr (.unregister (some a))) .success ∈ v.trace

theorem Destroying.prim {v : ThreadView N H τ} {u t : τ} {b : Addr} {id id' : Nat}
    {p : (threadSig H).Op} {r : (threadSig H).Res p} {s : ThreadState N H}
    (h : Destroying v u b id') (hp : u ≠ t ∨ ∀ a, p ≠ .inl (.free a)) :
    Destroying (v.prim id t p r s) u b id' := by
  refine ⟨h.1, ?_⟩
  rw [View.prim_trace, List.mem_append]
  rintro (hold | hnew)
  · exact h.2 hold
  · cases hnew with
    | head =>
        rcases hp with hp | hp
        · exact hp rfl
        · exact hp b rfl
    | tail _ hnil => cases hnil

/-! ### The state alone -/

/-- The record at `a` is in the table. -/
def InTable (s : ThreadState N H) (a : Addr) : Prop := ∃ i, s.table.holds a i = true

/-- The record at `a` is allocated, and its handle is the one of the OS thread started for it. -/
def Stored (s : ThreadState N H) (a : Addr) : Prop :=
  ∃ r o, s.mem a = some r ∧ s.startedFor a = some o ∧ r.handle = some o.handle

/-- Handles of threads not yet joined. -/
def Apart (o o' : OsThread H) : Prop :=
  o.status ≠ .joined → o'.status ≠ .joined → o.handle ≠ o'.handle

structure Sound (s : ThreadState N H) : Prop where
  slots : ∀ i, (s.table i).inUse = true → ∃ a, (s.table i).thread = some a ∧ Stored s a
  free : ∀ i, (s.table i).inUse = false → (s.table i).thread = none
  once : ∀ i j a, s.table.holds a i = true → s.table.holds a j = true → i = j
  apart : s.os.Pairwise Apart

theorem holds_iff {tab : Table N} {a : Addr} {i : Fin N} :
    tab.holds a i = true ↔ (tab i).inUse = true ∧ (tab i).thread = some a := by
  simp [Table.holds]

/-- The slots that hold a record once slot `i` was given to `a`. -/
theorem holds_registered {tab : Table N} {a b : Addr} {i j : Fin N} :
    Table.holds (Function.update tab i ⟨some a, true⟩) b j = true ↔
      (j = i ∧ a = b) ∨ (j ≠ i ∧ tab.holds b j = true) := by
  rw [holds_iff, holds_iff]
  by_cases hj : j = i
  · subst hj
    simp
  · simp [hj]

/-- The slots that hold a record once slot `i` was freed. -/
theorem holds_unregistered {tab : Table N} {b : Addr} {i j : Fin N} :
    Table.holds (Function.update tab i .zero) b j = true ↔ j ≠ i ∧ tab.holds b j = true := by
  rw [holds_iff, holds_iff]
  by_cases hj : j = i
  · subst hj
    simp [TtThreadTableEntry.zero]
  · simp [hj]

theorem Stored.mem {s : ThreadState N H} {a : Addr} (h : Stored s a) : s.mem a ≠ none := by
  obtain ⟨r, o, hr, -⟩ := h
  rw [hr]
  exact Option.some_ne_none r

theorem InTable.stored {s : ThreadState N H} {a : Addr} (hs : Sound s) (h : InTable s a) :
    Stored s a := by
  obtain ⟨i, hi⟩ := h
  obtain ⟨hused, hthread⟩ := holds_iff.mp hi
  obtain ⟨a', ha', hstored⟩ := hs.slots i hused
  rw [hthread] at ha'
  cases ha'
  exact hstored

/-- What a step preserves of the record at `b`. -/
structure Keeps (s s' : ThreadState N H) (b : Addr) : Prop where
  mem : s.mem b ≠ none → s'.mem b ≠ none
  stored : Stored s b → Stored s' b
  inTable : InTable s' b ↔ InTable s b

theorem Keeps.of_table {s s' : ThreadState N H} {b : Addr} (htable : s'.table = s.table)
    (hmem : s.mem b ≠ none → s'.mem b ≠ none) (hstored : Stored s b → Stored s' b) :
    Keeps s s' b := by
  refine ⟨hmem, hstored, ?_⟩
  unfold InTable
  rw [htable]

/-- A step on one record that is not in the table. -/
theorem Sound.outside {s s' : ThreadState N H} (h : Sound s) {a : Addr} (ha : ¬ InTable s a)
    (htable : s'.table = s.table) (hstored : ∀ b, b ≠ a → Stored s b → Stored s' b)
    (happart : s'.os.Pairwise Apart) : Sound s' := by
  refine ⟨?_, ?_, ?_, happart⟩
  · intro i hi
    rw [htable] at hi ⊢
    obtain ⟨b, hb, hstoredb⟩ := h.slots i hi
    refine ⟨b, hb, hstored b ?_ hstoredb⟩
    intro hba
    subst hba
    exact ha ⟨i, holds_iff.mpr ⟨hi, hb⟩⟩
  · rw [htable]
    exact h.free
  · rw [htable]
    exact h.once

theorem Stored.setMem {s : ThreadState N H} {a b : Addr} (hb : b ≠ a) (x : Option (TtThread H))
    (h : Stored s b) : Stored (s.setMem a x) b := by
  obtain ⟨r, o, hr, ho, hhandle⟩ := h
  exact ⟨r, o, (Function.update_of_ne hb _ _).trans hr, ho, hhandle⟩

theorem Keeps.setMem {s : ThreadState N H} {a b : Addr} (hb : b ≠ a) (x : Option (TtThread H)) :
    Keeps s (s.setMem a x) b := by
  refine .of_table rfl ?_ (Stored.setMem hb x)
  intro hmem
  rw [ThreadState.setMem_mem_of_ne s hb]
  exact hmem

theorem Stored.spawn {s : ThreadState N H} {o : OsThread H} {b : Addr} (hb : b ≠ o.record)
    (h : Stored s b) : Stored (s.spawn o) b := by
  obtain ⟨r, o', hr, ho, hhandle⟩ := h
  exact ⟨r, o', (Function.update_of_ne hb _ _).trans hr, (s.startedFor_spawn_of_ne hb).trans ho,
    hhandle⟩

theorem Keeps.spawn {s : ThreadState N H} {o : OsThread H} {b : Addr} (hb : b ≠ o.record) :
    Keeps s (s.spawn o) b := by
  refine .of_table rfl ?_ (Stored.spawn hb)
  intro hmem
  exact (Keeps.setMem hb _).mem hmem

/-- The record for which a thread has just been started. -/
theorem Stored.of_spawn {s : ThreadState N H} {o : OsThread H} (h : s.mem o.record ≠ none) :
    Stored (s.spawn o) o.record := by
  obtain ⟨r, hr⟩ := Option.ne_none_iff_exists'.mp h
  refine ⟨{ r with handle := some o.handle }, o, ?_, s.startedFor_spawn_self o, rfl⟩
  simp [ThreadState.spawn, ThreadState.setMem, hr]

theorem apart_spawn [DecidableEq H] {s : ThreadState N H} {o : OsThread H}
    (h : s.os.Pairwise Apart) (hfree : s.taken o.handle = false) :
    (s.spawn o).os.Pairwise Apart := by
  refine List.pairwise_cons.mpr ⟨?_, h⟩
  intro o' ho' _ hlive heq
  have htaken := (List.any_eq_false.mp hfree) o' ho'
  simp [heq, hlive] at htaken

theorem apart_reap [DecidableEq H] {s : ThreadState N H} (hapart : s.os.Pairwise Apart) (h : H)
    (status : OsStatus) : (s.reap h status).os.Pairwise Apart := by
  refine List.pairwise_map.mpr (hapart.imp ?_)
  have hlive : ∀ o : OsThread H, (if o.handle = h ∧ o.status = .joinable then
      { o with status := status } else o).status ≠ .joined → o.status ≠ .joined := by
    intro o ho hjoined
    rw [if_neg (by rw [hjoined]; exact fun hand => OsStatus.noConfusion hand.2)] at ho
    exact ho hjoined
  have hhandle : ∀ o : OsThread H, (if o.handle = h ∧ o.status = .joinable then
      { o with status := status } else o).handle = o.handle := by
    intro o
    split <;> rfl
  intro o o' happart ho ho'
  rw [hhandle, hhandle]
  exact happart (hlive o ho) (hlive o' ho')

instance : Std.Symm (Apart (H := H)) where
  symm _ _ h hlive hlive' heq := h hlive' hlive heq.symm

/-- The threads started for two records. -/
theorem apart_startedFor {s : ThreadState N H} (hapart : s.os.Pairwise Apart) {a b : Addr}
    (hab : a ≠ b) {o o' : OsThread H} (ho : s.startedFor a = some o)
    (ho' : s.startedFor b = some o') : Apart o o' := by
  refine hapart.forall (List.mem_of_find?_eq_some ho) (List.mem_of_find?_eq_some ho') ?_
  intro heq
  have ha : o.record = a := by simpa using List.find?_some ho
  have hb : o'.record = b := by simpa using List.find?_some ho'
  exact hab (by rw [← ha, ← hb, heq])

/-- A record that is registered: the free slot holds it, the others are as they were. -/
theorem Sound.register {s : ThreadState N H} (h : Sound s) {a : Addr} {i : Fin N}
    (hi : (s.table i).inUse = false) (hstored : Stored s a) (ha : ¬ InTable s a) :
    Sound { s with table := Function.update s.table i ⟨some a, true⟩ } ∧
      InTable { s with table := Function.update s.table i ⟨some a, true⟩ } a ∧
      ∀ b, b ≠ a → Keeps s { s with table := Function.update s.table i ⟨some a, true⟩ } b := by
  refine ⟨⟨?_, ?_, ?_, h.apart⟩, ⟨i, holds_registered.mpr (Or.inl ⟨rfl, rfl⟩)⟩, ?_⟩
  · intro j hj
    by_cases hji : j = i
    · subst hji
      exact ⟨a, by simp, hstored⟩
    · simp only [Function.update_of_ne hji] at hj ⊢
      exact h.slots j hj
  · intro j hj
    by_cases hji : j = i
    · subst hji
      simp at hj
    · simp only [Function.update_of_ne hji] at hj ⊢
      exact h.free j hj
  · intro j k b hj hk
    rcases holds_registered.mp hj with ⟨rfl, rfl⟩ | ⟨hji, hj'⟩
    · rcases holds_registered.mp hk with ⟨rfl, -⟩ | ⟨-, hk'⟩
      · rfl
      · exact absurd ⟨k, hk'⟩ ha
    · rcases holds_registered.mp hk with ⟨rfl, rfl⟩ | ⟨-, hk'⟩
      · exact absurd ⟨j, hj'⟩ ha
      · exact h.once j k _ hj' hk'
  · intro b hb
    refine ⟨fun hm => hm, fun hst => hst, ?_⟩
    refine ⟨?_, ?_⟩
    · rintro ⟨j, hj⟩
      rcases holds_registered.mp hj with ⟨-, hba⟩ | ⟨-, hj'⟩
      · exact absurd hba.symm hb
      · exact ⟨j, hj'⟩
    · rintro ⟨j, hj⟩
      refine ⟨j, holds_registered.mpr (Or.inr ⟨?_, hj⟩)⟩
      intro hji
      subst hji
      rw [(holds_iff.mp hj).1] at hi
      cases hi

/-- A record that is unregistered is in no slot any more. -/
theorem Sound.unregister {s : ThreadState N H} (h : Sound s) {a : Addr} {i : Fin N}
    (hi : s.table.holds a i = true) :
    Sound { s with table := Function.update s.table i .zero } ∧
      ¬ InTable { s with table := Function.update s.table i .zero } a ∧
      ∀ b, b ≠ a → Keeps s { s with table := Function.update s.table i .zero } b := by
  refine ⟨⟨?_, ?_, ?_, h.apart⟩, ?_, ?_⟩
  · intro j hj
    by_cases hji : j = i
    · subst hji
      simp [TtThreadTableEntry.zero] at hj
    · simp only [Function.update_of_ne hji] at hj ⊢
      exact h.slots j hj
  · intro j hj
    by_cases hji : j = i
    · subst hji
      simp [TtThreadTableEntry.zero]
    · simp only [Function.update_of_ne hji] at hj ⊢
      exact h.free j hj
  · intro j k b hj hk
    exact h.once j k b (holds_unregistered.mp hj).2 (holds_unregistered.mp hk).2
  · rintro ⟨j, hj⟩
    obtain ⟨hji, hj'⟩ := holds_unregistered.mp hj
    exact hji (h.once j i a hj' hi)
  · intro b hb
    refine ⟨fun hm => hm, fun hst => hst, ?_⟩
    refine ⟨?_, ?_⟩
    · rintro ⟨j, hj⟩
      exact ⟨j, (holds_unregistered.mp hj).2⟩
    · rintro ⟨j, hj⟩
      refine ⟨j, holds_unregistered.mpr ⟨?_, hj⟩⟩
      intro hji
      subst hji
      have hab := (holds_iff.mp hj).2.symm.trans (holds_iff.mp hi).2
      exact hb (Option.some.inj hab)

end Thread

end TinyTools
