/-
In whose hands a thread record is.

This is about clients that are more careful than the functions are: they join a record
only while it is active, and they make one call on a record at a time.  Each record is
then at any moment in the hands of the create that makes it, of the one call on it, or
of nobody.  Whoever has it knows all of it, and in nobody's hands it is either active,
with a joinable thread, or terminated, with its thread joined.
-/
import TinyTools.Proofs.Thread.Owner

namespace TinyTools

open Interleave

namespace ThreadReap

open Thread (ThreadView ThreadEvent Apart apart_spawn apart_reap apart_startedFor)

variable {N : Nat} {H τ : Type}

/-! ### What the clients promise -/

/-- Whose a record is, as the clients see it: they know of none at the address, it is theirs to
use, a call on it is in progress. -/
inductive Custody : Type
  | unknown
  | ready
  | busy
  deriving DecidableEq

/-- The record a call gives back to the clients when it returns. -/
def givesBack (result : TableVal) : ThreadCall H → Option Addr
  | .join thread => thread
  | .destroy thread => if result = .err .success then none else thread
  | .init | .create _ _ _ _ | .findByHandle _ => none

def custodyStep (a : Addr) (st : Custody) : ThreadEvent H τ → Custody
  | .prim _ _ (.inl (.writeVar _ p)) _ => if p = a then .ready else st
  | .prim _ _ (.inl (.free p)) _ => if p = a then .unknown else st
  | .prim _ _ _ _ => st
  | .call _ _ c => if c.record = some a then .busy else st
  | .ret _ _ c result => if givesBack result c = some a then .ready else st

def custody (tr : List (ThreadEvent H τ)) (a : Addr) : Custody :=
  tr.foldl (custodyStep a) .unknown

@[simp] theorem custody_snoc (tr : List (ThreadEvent H τ)) (e : ThreadEvent H τ) (a : Addr) :
    custody (tr ++ [e]) a = custodyStep a (custody tr a) e := by
  simp [custody]

/-- A record is used by one call at a time, and joined only while it is active. -/
def Careful (v : ThreadView N H τ) (_ : τ) : ThreadCall H → Prop
  | .join (some a) =>
      custody v.trace a = .ready ∧ (v.shared.mem a).any (·.isActive) = true
  | .destroy (some a) => custody v.trace a = .ready
  | .join none | .destroy none | .init | .create _ _ _ _ | .findByHandle _ => True

instance (v : ThreadView N H τ) (t : τ) (c : ThreadCall H) : Decidable (Careful v t c) :=
  match c with
  | .join (some _) => inferInstanceAs (Decidable (_ ∧ _))
  | .destroy (some a) => inferInstanceAs (Decidable (custody v.trace a = .ready))
  | .join none | .destroy none | .init | .create _ _ _ _ | .findByHandle _ =>
      inferInstanceAs (Decidable True)

/-- The obligation of a primitive that a call of `c` is about to perform: `pthread_join` and
`pthread_detach` find the thread of the call's record joinable, and a destroy frees a record whose
thread is joinable no more. -/
def Reaps (s : ThreadState N H) (c : ThreadCall H) : (threadSig H).Op → Prop
  | .inl (.pthreadJoin handle) | .inl (.pthreadDetach handle) =>
      ∃ a o, c.record = some a ∧ s.startedFor a = some o ∧ handle = some o.handle ∧
        o.status = .joinable
  | .inl (.free p) =>
      ∀ a, c = .destroy (some a) → p = a ∧ ∃ o, s.startedFor a = some o ∧ o.status ≠ .joinable
  | _ => True

/-! ### The state alone -/

/-- The record at `a` is `r`, and `o` the thread started for it, once it is. -/
structure Held (s : ThreadState N H) (a : Addr) (r : TtThread H) (o : Option (OsThread H)) :
    Prop where
  mem : s.mem a = some r
  started : ∀ o', o = some o' → s.startedFor a = some o' ∧ r.handle = some o'.handle

/-- A thread that has not been joined, and its record. -/
structure Active (r : TtThread H) (o : OsThread H) : Prop where
  state : r.state = .created
  isActive : r.isActive = true
  status : o.status = .joinable

/-- A thread that has been joined, and its record. -/
structure Reaped (r : TtThread H) (o : OsThread H) : Prop where
  state : r.state = .terminated
  isActive : r.isActive = false
  status : o.status ≠ .joinable

/-- The record at `a` as the clients may find it. -/
def Settled (s : ThreadState N H) (a : Addr) : Prop :=
  ∃ r o, Held s a r (some o) ∧ (Active r o ∨ Reaped r o)

theorem Held.congr {s s' : ThreadState N H} {a : Addr} {r : TtThread H} {o : Option (OsThread H)}
    (hmem : s'.mem = s.mem) (hos : s'.os = s.os) (h : Held s a r o) : Held s' a r o := by
  refine ⟨by rw [hmem]; exact h.mem, ?_⟩
  unfold ThreadState.startedFor
  rw [hos]
  exact h.started

theorem Held.setMem {s : ThreadState N H} {a b : Addr} (hb : b ≠ a) (x : Option (TtThread H))
    {r : TtThread H} {o : Option (OsThread H)} (h : Held s b r o) : Held (s.setMem a x) b r o :=
  ⟨(s.setMem_mem_of_ne hb x).trans h.mem, h.started⟩

theorem Held.spawn {s : ThreadState N H} (o' : OsThread H) {b : Addr} (hb : b ≠ o'.record)
    {r : TtThread H} {o : Option (OsThread H)} (h : Held s b r o) : Held (s.spawn o') b r o := by
  refine ⟨(Held.setMem hb _ h).mem, ?_⟩
  rw [s.startedFor_spawn_of_ne hb]
  exact h.started

/-- The record for which a thread has just been started. -/
theorem Held.of_spawn {s : ThreadState N H} {o : OsThread H} {r : TtThread H}
    (hr : s.mem o.record = some r) :
    Held (s.spawn o) o.record { r with handle := some o.handle } (some o) := by
  refine ⟨?_, ?_⟩
  · simp [ThreadState.spawn, ThreadState.setMem, hr]
  · intro o' ho'
    cases ho'
    exact ⟨s.startedFor_spawn_self o, rfl⟩

section Reap

variable [DecidableEq H] {s : ThreadState N H} {a b : Addr} {r : TtThread H} {o : OsThread H}

/-- Reaping the thread of one record leaves those of the others alone. -/
theorem Held.reap (hapart : s.os.Pairwise Apart) (ho : s.startedFor a = some o)
    (hjoinable : o.status = .joinable) (status : OsStatus) (hb : b ≠ a)
    {o' : Option (OsThread H)} (h : Held s b r o') : Held (s.reap o.handle status) b r o' := by
  refine ⟨h.mem, ?_⟩
  intro o₁ ho₁
  obtain ⟨hstarted, hhandle⟩ := h.started o₁ ho₁
  refine ⟨?_, hhandle⟩
  rw [s.startedFor_reap, hstarted, Option.map_some, if_neg]
  rintro ⟨heq, hjoinable₁⟩
  have happart := apart_startedFor hapart hb hstarted ho
  refine happart ?_ ?_ heq
  · rw [hjoinable₁]
    exact nofun
  · rw [hjoinable]
    exact nofun

theorem Held.reap_self (h : Held s a r (some o)) (hjoinable : o.status = .joinable)
    (status : OsStatus) : Held (s.reap o.handle status) a r (some { o with status := status }) := by
  refine ⟨h.mem, ?_⟩
  intro o' ho'
  cases ho'
  obtain ⟨hstarted, hhandle⟩ := h.started o rfl
  refine ⟨?_, hhandle⟩
  rw [s.startedFor_reap, hstarted, Option.map_some, if_pos ⟨rfl, hjoinable⟩]

end Reap

/-! ### The invariant -/

/-- What a thread has in hand: nothing, or the record at `a`, which is `r`, and its thread. -/
inductive Ghost (H : Type) : Type
  | idle
  | own (a : Addr) (r : TtThread H) (o : Option (OsThread H))

def Ghost.owns : Ghost H → Option Addr
  | .idle => none
  | .own a _ _ => some a

def Knows (s : ThreadState N H) : Ghost H → Prop
  | .idle => True
  | .own a r o => Held s a r o

structure Inv (v : ThreadView N H τ) (G : τ → Ghost H) : Prop where
  knows : ∀ t, Knows v.shared (G t)
  exclusive : Outline.Exclusive Ghost.owns G
  ready : ∀ a, custody v.trace a = .ready → Settled v.shared a ∧ ∀ t, (G t).owns ≠ some a
  busy : ∀ a, custody v.trace a = .busy → ∃ t, (G t).owns = some a
  apart : v.shared.os.Pairwise Apart

def outline (N : Nat) (H τ : Type) :
    Outline (threadSig H) τ (ThreadState N H) (ThreadCall H) TableVal (Ghost H) where
  idle g := g = .idle
  inv := Inv
  pre v t p := ∀ id c, v.calls t = some (id, c) → Reaps v.shared c p

theorem Knows.transfer {s s' : ThreadState N H} {g : Ghost H} (h : Knows s g)
    (hheld : ∀ a r o, g.owns = some a → Held s a r o → Held s' a r o) : Knows s' g := by
  cases g with
  | idle => trivial
  | own a r o => exact hheld a r o rfl h

theorem Settled.transfer {s s' : ThreadState N H} {a : Addr} (h : Settled s a)
    (hheld : ∀ r o, Held s a r o → Held s' a r o) : Settled s' a := by
  obtain ⟨r, o, hr, hrest⟩ := h
  exact ⟨r, o, hheld r (some o) hr, hrest⟩

/-- A step that changes no record, no thread and nothing the clients know of. -/
theorem Inv.keep {v v' : ThreadView N H τ} {G : τ → Ghost H} (h : Inv v G)
    (hmem : v'.shared.mem = v.shared.mem) (hos : v'.shared.os = v.shared.os)
    (hcustody : ∀ a, custody v'.trace a = custody v.trace a) : Inv v' G := by
  refine ⟨?_, h.exclusive, ?_, ?_, ?_⟩
  · intro t
    exact (h.knows t).transfer fun _ _ _ _ => .congr hmem hos
  · intro a hst
    rw [hcustody a] at hst
    obtain ⟨hsettled, hnone⟩ := h.ready a hst
    exact ⟨hsettled.transfer fun _ _ => .congr hmem hos, hnone⟩
  · intro a hst
    rw [hcustody a] at hst
    exact h.busy a hst
  · rw [hos]
    exact h.apart

/-- A step of `t` that concerns the record at `a` alone, which is its own or nobody's. -/
theorem Inv.focus [DecidableEq τ] {v v' : ThreadView N H τ} {G : τ → Ghost H} (h : Inv v G) {t : τ}
    {g : Ghost H} {a : Addr}
    (hothers : ∀ b r o, b ≠ a → Held v.shared b r o → Held v'.shared b r o)
    (hcustody : ∀ b, b ≠ a → custody v'.trace b = custody v.trace b)
    (happart : v'.shared.os.Pairwise Apart) (hmine : ∀ u, u ≠ t → (G u).owns ≠ some a)
    (hbefore : ∀ b, (G t).owns = some b → b = a) (hafter : ∀ b, g.owns = some b → b = a)
    (hknows : Knows v'.shared g)
    (hready : custody v'.trace a = .ready → Settled v'.shared a ∧ g = .idle)
    (hbusy : custody v'.trace a = .busy → g.owns = some a) :
    Inv v' (Function.update G t g) := by
  have howner : ∀ u b, (Function.update G t g u).owns = some b →
      (u = t ∧ b = a ∧ g.owns = some a) ∨ (u ≠ t ∧ b ≠ a ∧ (G u).owns = some b) :=
    fun u b => Outline.owns_update hmine hafter
  refine ⟨?_, h.exclusive.update hmine hafter, ?_, ?_, happart⟩
  · refine (Function.forall_update_iff _ _).mpr ⟨hknows, fun u hut => ?_⟩
    refine (h.knows u).transfer fun b r o hb => hothers b r o ?_
    intro hba
    subst hba
    exact hmine u hut hb
  · intro b hst
    by_cases hb : b = a
    · subst hb
      obtain ⟨hsettled, hidle⟩ := hready hst
      refine ⟨hsettled, ?_⟩
      intro u hu
      rcases howner u b hu with ⟨-, -, howns⟩ | ⟨-, hb, -⟩
      · rw [hidle] at howns
        cases howns
      · exact hb rfl
    · rw [hcustody b hb] at hst
      obtain ⟨hsettled, hnone⟩ := h.ready b hst
      refine ⟨hsettled.transfer fun r o => hothers b r o hb, ?_⟩
      intro u hu
      rcases howner u b hu with ⟨-, hba, -⟩ | ⟨-, -, hu'⟩
      · exact hb hba
      · exact hnone u hu'
  · intro b hst
    by_cases hb : b = a
    · subst hb
      refine ⟨t, ?_⟩
      rw [Function.update_self]
      exact hbusy hst
    · rw [hcustody b hb] at hst
      obtain ⟨u, hu⟩ := h.busy b hst
      have hut : u ≠ t := by
        intro hut
        subst hut
        exact hb (hbefore b hu)
      refine ⟨u, ?_⟩
      rw [Function.update_of_ne hut]
      exact hu

/-- An address that is not allocated is nobody's. -/
theorem Inv.nobody {v : ThreadView N H τ} {G : τ → Ghost H} (h : Inv v G) {a : Addr}
    (hnone : v.shared.mem a = none) :
    (∀ t, (G t).owns ≠ some a) ∧ custody v.trace a = .unknown := by
  have howns : ∀ t, (G t).owns ≠ some a := by
    intro t ht
    have hknows := h.knows t
    cases hg : G t with
    | idle =>
        rw [hg] at ht
        cases ht
    | own b r o =>
        rw [hg] at ht hknows
        cases ht
        have hr := hnone.symm.trans hknows.mem
        cases hr
  refine ⟨howns, ?_⟩
  cases hst : custody v.trace a with
  | unknown => rfl
  | ready =>
      obtain ⟨⟨r, o, hheld, -⟩, -⟩ := h.ready a hst
      have hr := hnone.symm.trans hheld.mem
      cases hr
  | busy =>
      obtain ⟨t, ht⟩ := h.busy a hst
      exact absurd ht (howns t)

/-- What is in the hands of a thread is not at anybody else's disposal. -/
theorem Inv.mine {v : ThreadView N H τ} {G : τ → Ghost H} (h : Inv v G) {t : τ} {a : Addr}
    {r : TtThread H} {o : Option (OsThread H)} (hgt : G t = .own a r o) :
    Held v.shared a r o ∧ (∀ u, u ≠ t → (G u).owns ≠ some a) ∧
      (∀ b, (G t).owns = some b → b = a) ∧ custody v.trace a ≠ .ready := by
  have howns : (G t).owns = some a := by
    rw [hgt]
    rfl
  have hknows := Outline.at_ghost h.knows hgt
  refine ⟨hknows, h.exclusive.others howns, ?_, ?_⟩
  · intro b hb
    rw [howns] at hb
    exact (Option.some.inj hb).symm
  · intro hst
    exact (h.ready a hst).2 t howns

end ThreadReap

end TinyTools
