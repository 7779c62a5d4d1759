/-
What a record says of its thread.

`tt_thread_create` stores `TT_THREAD_STATE_CREATED` in a record and `tt_thread_join`
stores `TT_THREAD_STATE_TERMINATED`; nobody stores anything else.  So the state of a
record tells whether a join of it has come so far, and a join comes so far only once
the thread has been joined.  It takes the handle from the record, and of two threads
that are not joined yet no two have the same handle.

All of this is about records the clients know of, and rests on whose a record is
(`Invariant.lean`), which is why it is an outline over that one.  It is lost when a join
stores a state in a record that was freed while the join was in progress: the record may
by then be another thread's.
-/
import TinyTools.Execution
import TinyTools.Proofs.Thread.Table

namespace TinyTools

open Interleave

namespace ThreadLife

open Thread (ThreadView ThreadEvent ledger ledgerStep ledger_snoc InTable Stored Joined Apart
  Owned Attr wp_platformCreate)

variable {N : Nat} {H τ : Type}

/-! ### What has happened to a record -/

/-- Whether a join has stored the state of the record at `a` since it was handed out. -/
def settledStep (a : Addr) (b : Bool) : ThreadEvent H τ → Bool
  | .prim _ _ (.inl (.writeVar _ p)) _ => if p = a then false else b
  | .prim _ _ (.inl (.write p (.state .terminated))) _ => if p = a then true else b
  | _ => b

def settled (tr : List (ThreadEvent H τ)) (a : Addr) : Bool := tr.foldl (settledStep a) false

@[simp] theorem settled_snoc (tr : List (ThreadEvent H τ)) (e : ThreadEvent H τ) (a : Addr) :
    settled (tr ++ [e]) a = settledStep a (settled tr a) e := by
  simp [settled]

/-- Whether `tt_thread_table_register` has returned `TT_SUCCESS` for the record at `a` since a
thread was last made for it. -/
def registeredStep (a : Addr) (b : Bool) : ThreadEvent H τ → Bool
  | .prim _ _ (.inl (.pthreadCreate p _ _ _)) ok => if p = a ∧ ok = true then false else b
  | .prim _ _ (.inr (.register thread)) result =>
      if thread = some a ∧ result = .success then true else b
  | _ => b

def registered (tr : List (ThreadEvent H τ)) (a : Addr) : Bool :=
  tr.foldl (registeredStep a) false

@[simp] theorem registered_snoc (tr : List (ThreadEvent H τ)) (e : ThreadEvent H τ) (a : Addr) :
    registered (tr ++ [e]) a = registeredStep a (registered tr a) e := by
  simp [registered]

/-- Call `id` is a join of the record at `a`. -/
def Joins (tr : List (ThreadEvent H τ)) (id : Nat) (a : Addr) : Prop :=
  ∃ t, .call id t (.join (some a)) ∈ tr

/-- The record at `a` has been freed since call `id`, a join of it, began. -/
def FreedSince (tr : List (ThreadEvent H τ)) (id : Nat) (a : Addr) : Prop :=
  At tr fun past e => (∃ id' t, e = .prim id' t (.inl (.free a)) ()) ∧ Joins past id a

/-- A join has stored a state in a record that had been freed since the join began. -/
def Stale (tr : List (ThreadEvent H τ)) : Prop :=
  At tr fun past e => ∃ id t a st, e = .prim id t (.inl (.write a (.state st))) () ∧
    FreedSince past id a

theorem Joins.snoc {tr : List (ThreadEvent H τ)} {id : Nat} {a : Addr} (h : Joins tr id a)
    (e : ThreadEvent H τ) : Joins (tr ++ [e]) id a :=
  h.imp fun _ ht => List.mem_append_left _ ht

/-- Whether this frees a record. -/
def frees : ThreadEvent H τ → Bool
  | .prim _ _ (.inl (.free _)) _ => true
  | _ => false

/-- Where no record has been freed, no join is stale. -/
theorem not_stale {tr : List (ThreadEvent H τ)} (h : tr.any frees = false) : ¬ Stale tr := by
  rintro ⟨past, e, rest, rfl, id, t, a, st, -, past', e', rest', rfl, ⟨id', t', rfl⟩, -⟩
  have hfree := List.any_eq_false.mp h (.prim id' t' (.inl (.free a)) ()) (by simp)
  exact hfree rfl

/-! ### The invariant -/

/-- The state stored in the record at `a`. -/
def stateOf (s : ThreadState N H) (a : Addr) : Option TtThreadState := (s.mem a).map (·.state)

/-- What a thread is doing with a record. -/
inductive Life (H : Type) : Type
  | idle
  /-- In create: the record is allocated; its state is stored; its thread is made; it is
  registered. -/
  | making (a : Addr)
  | made (a : Addr)
  | spawned (a : Addr)
  | listed (a : Addr)
  /-- In join: the call has begun; it has read the handle; it has joined the thread. -/
  | joining (id : Nat) (a : Addr)
  | waiting (id : Nat) (a : Addr) (handle : Option H)
  | reaped (id : Nat) (a : Addr)
  /-- In destroy: before it reads the state; the state was `TT_THREAD_STATE_TERMINATED`; the record
  is out of the table. -/
  | closing (a : Addr)
  | condemned (a : Addr)
  | removed (a : Addr)

/-- What this is as far as the table is concerned. -/
def Life.base : Life H → Thread.Ghost
  | .idle | .joining _ _ | .waiting _ _ _ | .reaped _ _ => .idle
  | .making a | .made a => .making a
  | .spawned a => .started a
  | .listed a => .registered a
  | .closing a | .condemned a => .closing a
  | .removed a => .removed a

/-- The clients know of the record at `a`. -/
def Known (v : ThreadView N H τ) (a : Addr) : Prop := ledger v.trace a ≠ .unknown

/-- A join that found `P` in its record: that is still so, unless the record has been freed. -/
def Found (v : ThreadView N H τ) (id : Nat) (a : Addr) (P : Prop) : Prop :=
  Joins v.trace id a ∧ (FreedSince v.trace id a ∨ (Known v a ∧ P))

/-- What a ghost says of its record. -/
def Knows (v : ThreadView N H τ) : Life H → Prop
  | .idle | .making _ | .closing _ => True
  | .made a | .spawned a | .listed a => ¬ Known v a ∧ stateOf v.shared a = some .created
  | .joining id a => Found v id a True
  | .waiting id a handle => Found v id a (v.shared.handleOf a = handle)
  | .reaped id a => Found v id a (Joined v.shared a)
  | .condemned a | .removed a => Joined v.shared a

/-- What the state of a record that the clients know of says. -/
structure Tells (v : ThreadView N H τ) (a : Addr) : Prop where
  stored : Stored v.shared a
  state : (stateOf v.shared a = some .created ∧ settled v.trace a = false) ∨
    (stateOf v.shared a = some .terminated ∧ settled v.trace a = true ∧ Joined v.shared a)

/-- What the table has to do with it. -/
structure Lists (v : ThreadView N H τ) (a : Addr) : Prop where
  listed : registered v.trace a = true → Joined v.shared a ∨ InTable v.shared a
  registered : InTable v.shared a → registered v.trace a = true

structure Extra (v : ThreadView N H τ) (G : τ → Life H) : Prop where
  knows : ∀ t, Knows v (G t)
  tells : ∀ a, Known v a → Tells v a
  lists : ∀ a, Lists v a

theorem stale_snoc (tr : List (ThreadEvent H τ)) (e : ThreadEvent H τ) (h : Stale tr) :
    Stale (tr ++ [e]) := At.snoc h e

abbrev outline (N : Nat) (H τ : Type) :
    Outline (threadSig H) τ (ThreadState N H) (ThreadCall H) TableVal (Life H) :=
  (Thread.outline N H τ).extend Life.base (· = .idle) Extra Stale stale_snoc

/-! ### What a step leaves alone -/

/-- A step that does not concern the record at `a`. -/
structure Steady (v v' : ThreadView N H τ) (a : Addr) : Prop where
  handle : v'.shared.handleOf a = v.shared.handleOf a
  state : stateOf v'.shared a = stateOf v.shared a
  started : ∀ o, v.shared.startedFor a = some o → ∃ o', v'.shared.startedFor a = some o' ∧
    o'.handle = o.handle ∧ (o.status = .joined → o'.status = .joined)
  inTable : InTable v'.shared a ↔ InTable v.shared a
  known : Known v' a ↔ Known v a
  registered : registered v'.trace a = registered v.trace a
  settled : settled v'.trace a = settled v.trace a

/-- A step that a join of the record at `a` need not mind. -/
def Lasting (v v' : ThreadView N H τ) (a : Addr) : Prop :=
  Known v a → (Known v' a ∧ v'.shared.handleOf a = v.shared.handleOf a ∧
      (Joined v.shared a → Joined v'.shared a)) ∨
    ∀ id, Joins v.trace id a → FreedSince v'.trace id a

theorem stored_iff {s : ThreadState N H} {a : Addr} :
    Stored s a ↔ ∃ o, s.startedFor a = some o ∧ s.handleOf a = some o.handle := by
  unfold Stored ThreadState.handleOf
  refine ⟨?_, ?_⟩
  · rintro ⟨r, o, hr, ho, hhandle⟩
    exact ⟨o, ho, by rw [hr]; exact hhandle⟩
  · rintro ⟨o, ho, hhandle⟩
    obtain ⟨r, hr, hhandle'⟩ := Option.bind_eq_some_iff.mp hhandle
    exact ⟨r, o, hr, ho, hhandle'⟩

namespace Steady

variable {v v' : ThreadView N H τ} {a : Addr}

theorem joined (h : Steady v v' a) (hjoined : Joined v.shared a) : Joined v'.shared a := by
  obtain ⟨o, ho, hstatus⟩ := hjoined
  obtain ⟨o', ho', -, hstatus'⟩ := h.started o ho
  exact ⟨o', ho', hstatus' hstatus⟩

theorem lasting (h : Steady v v' a) : Lasting v v' a :=
  fun hknown => Or.inl ⟨h.known.mpr hknown, h.handle, h.joined⟩

theorem tells (h : Steady v v' a) (htells : Tells v a) : Tells v' a := by
  refine ⟨?_, ?_⟩
  · obtain ⟨o, ho, hhandle⟩ := stored_iff.mp htells.stored
    obtain ⟨o', ho', heq, -⟩ := h.started o ho
    exact stored_iff.mpr ⟨o', ho', by rw [h.handle, heq]; exact hhandle⟩
  · rw [h.state, h.settled]
    exact htells.state.imp_right fun hst => ⟨hst.1, hst.2.1, h.joined hst.2.2⟩

theorem lists (h : Steady v v' a) (hlists : Lists v a) : Lists v' a := by
  refine ⟨?_, ?_⟩
  · intro hregistered
    rw [h.registered] at hregistered
    exact (hlists.listed hregistered).imp h.joined h.inTable.mpr
  · intro hin
    rw [h.registered]
    exact hlists.registered (h.inTable.mp hin)

end Steady

theorem Found.imp {v : ThreadView N H τ} {id : Nat} {a : Addr} {P P' : Prop}
    (h : Found v id a P) (hP : Known v a → P → P') : Found v id a P' :=
  ⟨h.1, h.2.imp_right fun hk => ⟨hk.1, hP hk.1 hk.2⟩⟩

theorem Found.transfer {v v' : ThreadView N H τ} {id : Nat} {a : Addr} {P P' : Prop}
    (h : Found v id a P) {e : ThreadEvent H τ} (htrace : v'.trace = v.trace ++ [e])
    (hlasting : Lasting v v' a)
    (hP : v'.shared.handleOf a = v.shared.handleOf a →
      (Joined v.shared a → Joined v'.shared a) → P → P') : Found v' id a P' := by
  obtain ⟨hjoins, hfound⟩ := h
  have hjoins' : Joins v'.trace id a := by
    rw [htrace]
    exact hjoins.snoc e
  refine ⟨hjoins', ?_⟩
  rcases hfound with hfreed | ⟨hknown, hp⟩
  · rw [htrace]
    exact Or.inl (At.snoc hfreed e)
  · rcases hlasting hknown with ⟨hknown', hhandle, hjoined⟩ | hfreed
    · exact Or.inr ⟨hknown', hP hhandle hjoined hp⟩
    · exact Or.inl (hfreed id hjoins)

/-- What a ghost says survives whatever its own record, or the one it joins, need not mind. -/
theorem Knows.transfer {v v' : ThreadView N H τ} {g : Life H} (h : Knows v g)
    {e : ThreadEvent H τ} (htrace : v'.trace = v.trace ++ [e]) (hlasting : ∀ a, Lasting v v' a)
    (hown : ∀ a, g.base.owns = some a → Steady v v' a ∨
      (Known v a ∧ (Joined v.shared a → Joined v'.shared a))) : Knows v' g := by
  cases g with
  | idle => trivial
  | making a => trivial
  | closing a => trivial
  | made a | spawned a | listed a =>
      rcases hown a rfl with hsteady | hknown
      · exact ⟨fun hk => h.1 (hsteady.known.mp hk), hsteady.state.trans h.2⟩
      · exact absurd hknown.1 h.1
  | condemned a | removed a =>
      rcases hown a rfl with hsteady | hknown
      · exact hsteady.joined h
      · exact hknown.2 h
  | joining id a =>
      exact Found.transfer h htrace (hlasting a) fun _ _ hp => hp
  | waiting id a handle =>
      exact Found.transfer h htrace (hlasting a) fun hhandle _ hp => hhandle.trans hp
  | reaped id a =>
      exact Found.transfer h htrace (hlasting a) fun _ hjoined hp => hjoined hp

/-- A step that leaves every record alone. -/
theorem Extra.keep [DecidableEq τ] {v v' : ThreadView N H τ} {G : τ → Life H} (h : Extra v G)
    {t : τ} {g : Life H} {e : ThreadEvent H τ} (htrace : v'.trace = v.trace ++ [e])
    (hsteady : ∀ a, Steady v v' a) (hg : Knows v' g) : Extra v' (Function.update G t g) := by
  refine ⟨?_, ?_, ?_⟩
  · refine (Function.forall_update_iff _ _).mpr ⟨hg, fun u _ => ?_⟩
    exact (h.knows u).transfer htrace (fun a => (hsteady a).lasting) fun a _ => Or.inl (hsteady a)
  · intro a hknown
    exact (hsteady a).tells (h.tells a ((hsteady a).known.mp hknown))
  · intro a
    exact (hsteady a).lists (h.lists a)

/-- A step of `t` that concerns the record at `a` alone. -/
theorem Extra.focus [DecidableEq τ] {v v' : ThreadView N H τ} {G : τ → Life H} (h : Extra v G)
    {t : τ} {g : Life H} {a : Addr} {e : ThreadEvent H τ} (htrace : v'.trace = v.trace ++ [e])
    (hsteady : ∀ b, b ≠ a → Steady v v' b) (hlasting : Lasting v v' a)
    (hmine : ∀ u, u ≠ t → (G u).base.owns = some a →
      Known v a ∧ (Joined v.shared a → Joined v'.shared a))
    (hg : Knows v' g) (htells : Known v' a → Tells v' a) (hlists : Lists v' a) :
    Extra v' (Function.update G t g) := by
  have hlasting' : ∀ b, Lasting v v' b := by
    intro b
    by_cases hb : b = a
    · subst hb
      exact hlasting
    · exact (hsteady b hb).lasting
  refine ⟨?_, ?_, ?_⟩
  · refine (Function.forall_update_iff _ _).mpr ⟨hg, fun u hu => ?_⟩
    refine (h.knows u).transfer htrace hlasting' fun b howns => ?_
    by_cases hb : b = a
    · subst hb
      exact Or.inr (hmine u hu howns)
    · exact Or.inl (hsteady b hb)
  · intro b hknown
    by_cases hb : b = a
    · subst hb
      exact htells hknown
    · exact (hsteady b hb).tells (h.tells b ((hsteady b hb).known.mp hknown))
  · intro b
    by_cases hb : b = a
    · subst hb
      exact hlists
    · exact (hsteady b hb).lists (h.lists b)

end ThreadLife

end TinyTools
