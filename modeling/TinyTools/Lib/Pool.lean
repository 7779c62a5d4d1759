/-
Any number of threads calling into one library, one atomic step at a time.

A `Pool` is the shared state, what each thread is executing, and the trace of
everything that has happened.  Its steps are the three things a thread can do: an
idle thread calls a function, a running thread performs the next primitive of its
program, a thread whose program has come to a value returns it.  Any thread may
move at any moment, so the reachable pools are exactly the interleavings.

Calls are numbered as they start.  The number is what ties the events of one call
together in the trace, where several calls of one thread follow each other.

What the clients promise is a condition on starting a call, `ok`, and enters only
through `Reach`; the library's own steps are never restricted.
-/
import TinyTools.Lib.Prog
import Mathlib.Logic.Function.Basic

namespace Interleave

/-- What a trace records. -/
inductive Event (S : Sig) (τ κ α : Type) : Type
  | call (id : Nat) (t : τ) (c : κ)
  | prim (id : Nat) (t : τ) (p : S.Op) (r : S.Res p)
  | ret (id : Nat) (t : τ) (c : κ) (a : α)

/-- A pool without its programs: what an invariant may speak about. -/
structure View (S : Sig) (τ σ κ α : Type) where
  shared : σ
  /-- The call each thread is in, with its number. -/
  calls : τ → Option (Nat × κ)
  /-- The number of the next call. -/
  next : Nat
  trace : List (Event S τ κ α)

/-- A machine together with the functions its clients may call. -/
structure Sys (S : Sig) (τ χ σ κ α : Type) extends Machine S τ χ σ where
  body : κ → Prog S α

/-- A view and the rest of each running thread's program. -/
structure Pool (S : Sig) (τ σ κ α : Type) where
  view : View S τ σ κ α
  prog : τ → Option (Prog S α)

/-- What one step of a pool does, with the environment's choice for a primitive. -/
inductive Label (τ χ κ : Type) : Type
  | call (t : τ) (c : κ)
  | prim (t : τ) (x : χ)
  | ret (t : τ)

variable {S : Sig} {τ χ σ κ α : Type}

/-! ### The effect of a step on the view -/

namespace View

variable [DecidableEq τ] (v : View S τ σ κ α)

/-- Nothing has been called yet. -/
def start (s : σ) : View S τ σ κ α := ⟨s, fun _ => none, 0, []⟩

def call (t : τ) (c : κ) : View S τ σ κ α where
  shared := v.shared
  calls := Function.update v.calls t (some (v.next, c))
  next := v.next + 1
  trace := v.trace ++ [.call v.next t c]

def prim (id : Nat) (t : τ) (p : S.Op) (r : S.Res p) (s : σ) : View S τ σ κ α :=
  { v with shared := s, trace := v.trace ++ [.prim id t p r] }

def ret (id : Nat) (t : τ) (c : κ) (a : α) : View S τ σ κ α :=
  { v with calls := Function.update v.calls t none, trace := v.trace ++ [.ret id t c a] }

omit [DecidableEq τ] in
@[simp] theorem start_shared (s : σ) : (start s : View S τ σ κ α).shared = s := rfl

omit [DecidableEq τ] in
@[simp] theorem start_calls (s : σ) (t : τ) : (start s : View S τ σ κ α).calls t = none := rfl

omit [DecidableEq τ] in
@[simp] theorem start_trace (s : σ) : (start s : View S τ σ κ α).trace = [] := rfl

@[simp] theorem call_shared (t : τ) (c : κ) : (v.call t c).shared = v.shared := rfl

@[simp] theorem call_calls (t : τ) (c : κ) :
    (v.call t c).calls = Function.update v.calls t (some (v.next, c)) := rfl

@[simp] theorem call_next (t : τ) (c : κ) : (v.call t c).next = v.next + 1 := rfl

@[simp] theorem call_trace (t : τ) (c : κ) :
    (v.call t c).trace = v.trace ++ [.call v.next t c] := rfl

omit [DecidableEq τ] in
@[simp] theorem prim_shared (id : Nat) (t : τ) (p : S.Op) (r : S.Res p) (s : σ) :
    (v.prim id t p r s).shared = s := rfl

omit [DecidableEq τ] in
@[simp] theorem prim_calls (id : Nat) (t : τ) (p : S.Op) (r : S.Res p) (s : σ) :
    (v.prim id t p r s).calls = v.calls := rfl

omit [DecidableEq τ] in
@[simp] theorem prim_next (id : Nat) (t : τ) (p : S.Op) (r : S.Res p) (s : σ) :
    (v.prim id t p r s).next = v.next := rfl

omit [DecidableEq τ] in
@[simp] theorem prim_trace (id : Nat) (t : τ) (p : S.Op) (r : S.Res p) (s : σ) :
    (v.prim id t p r s).trace = v.trace ++ [.prim id t p r] := rfl

@[simp] theorem ret_shared (id : Nat) (t : τ) (c : κ) (a : α) :
    (v.ret id t c a).shared = v.shared := rfl

@[simp] theorem ret_calls (id : Nat) (t : τ) (c : κ) (a : α) :
    (v.ret id t c a).calls = Function.update v.calls t none := rfl

@[simp] theorem ret_next (id : Nat) (t : τ) (c : κ) (a : α) : (v.ret id t c a).next = v.next := rfl

@[simp] theorem ret_trace (id : Nat) (t : τ) (c : κ) (a : α) :
    (v.ret id t c a).trace = v.trace ++ [.ret id t c a] := rfl

end View

/-! ### Steps and reachable pools -/

namespace Sys

variable [DecidableEq τ] (S' : Sys S τ χ σ κ α)

/-- The pool in which nothing has been called yet. -/
def start (s : σ) : Pool S τ σ κ α := ⟨.start s, fun _ => none⟩

/-- One step of the pool; `none` where it is not possible. -/
def step : Label τ χ κ → Pool S τ σ κ α → Option (Pool S τ σ κ α)
  | .call t c, pl =>
      match pl.view.calls t with
      | none => some ⟨pl.view.call t c, Function.update pl.prog t (some (S'.body c))⟩
      | some _ => none
  | .prim t x, pl =>
      match pl.view.calls t, pl.prog t with
      | some (id, _), some (.step p k) =>
          (S'.exec x t p pl.view.shared).map fun rs =>
            ⟨pl.view.prim id t p rs.1 rs.2,
              if S'.again p rs.1 then pl.prog else Function.update pl.prog t (some (k rs.1))⟩
      | _, _ => none
  | .ret t, pl =>
      match pl.view.calls t, pl.prog t with
      | some (id, c), some (.ret a) => some ⟨pl.view.ret id t c a, Function.update pl.prog t none⟩
      | _, _ => none

variable {S'} in
theorem step_call {t : τ} {c : κ} {pl pl' : Pool S τ σ κ α} (h : S'.step (.call t c) pl = some pl') :
    pl.view.calls t = none ∧
      pl' = ⟨pl.view.call t c, Function.update pl.prog t (some (S'.body c))⟩ := by
  simp only [step] at h
  split at h
  · rename_i hnone
    cases h
    exact ⟨hnone, rfl⟩
  · cases h

variable {S'} in
theorem step_prim {t : τ} {x : χ} {pl pl' : Pool S τ σ κ α} (h : S'.step (.prim t x) pl = some pl') :
    ∃ id c p k r s, pl.view.calls t = some (id, c) ∧ pl.prog t = some (.step p k) ∧
      S'.exec x t p pl.view.shared = some (r, s) ∧
      pl' = ⟨pl.view.prim id t p r s,
        if S'.again p r then pl.prog else Function.update pl.prog t (some (k r))⟩ := by
  simp only [step] at h
  split at h
  · rename_i id c p k hc hp
    obtain ⟨⟨r, s⟩, hexec, rfl⟩ := Option.map_eq_some_iff.mp h
    exact ⟨id, c, p, k, r, s, hc, hp, hexec, rfl⟩
  · cases h

variable {S'} in
/-- A primitive that the machine does not ask for again. -/
theorem step_prim_eq {t : τ} {x : χ} {pl : Pool S τ σ κ α} {id : Nat} {c : κ} {p : S.Op}
    {k : S.Res p → Prog S α} {r : S.Res p} {s : σ} (hc : pl.view.calls t = some (id, c))
    (hp : pl.prog t = some (.step p k)) (hexec : S'.exec x t p pl.view.shared = some (r, s))
    (hr : S'.again p r = false) :
    S'.step (.prim t x) pl =
      some ⟨pl.view.prim id t p r s, Function.update pl.prog t (some (k r))⟩ := by
  simp [step, hc, hp, hexec, hr]

variable {S'} in
/-- A program that has come to a value. -/
theorem step_ret_eq {t : τ} {pl : Pool S τ σ κ α} {id : Nat} {c : κ} {a : α}
    (hc : pl.view.calls t = some (id, c)) (hp : pl.prog t = some (.ret a)) :
    S'.step (.ret t) pl = some ⟨pl.view.ret id t c a, Function.update pl.prog t none⟩ := by
  simp [step, hc, hp]

variable {S'} in
theorem step_ret {t : τ} {pl pl' : Pool S τ σ κ α} (h : S'.step (.ret t) pl = some pl') :
    ∃ id c a, pl.view.calls t = some (id, c) ∧ pl.prog t = some (.ret a) ∧
      pl' = ⟨pl.view.ret id t c a, Function.update pl.prog t none⟩ := by
  simp only [step] at h
  split at h
  · rename_i id c a hc hp
    cases h
    exact ⟨id, c, a, hc, hp, rfl⟩
  · cases h

/-- Whether the clients may take this step: `ok` restricts only the start of a call. -/
def Allowed (ok : View S τ σ κ α → τ → κ → Prop) (v : View S τ σ κ α) : Label τ χ κ → Prop
  | .call t c => ok v t c
  | _ => True

instance (ok : View S τ σ κ α → τ → κ → Prop) [∀ v t c, Decidable (ok v t c)]
    (v : View S τ σ κ α) (l : Label τ χ κ) : Decidable (Allowed ok v l) :=
  match l with
  | .call t c => inferInstanceAs (Decidable (ok v t c))
  | .prim _ _ => inferInstanceAs (Decidable True)
  | .ret _ => inferInstanceAs (Decidable True)

/-- The pools that runs from `s` reach, every call being started as `ok` allows. -/
inductive Reach (ok : View S τ σ κ α → τ → κ → Prop) (s : σ) : Pool S τ σ κ α → Prop
  | start : Reach ok s (start s)
  | step {pl pl' : Pool S τ σ κ α} (h : Reach ok s pl) (l : Label τ χ κ)
      (hok : Allowed ok pl.view l) (hstep : S'.step l pl = some pl') : Reach ok s pl'

/-- Follow a schedule, refusing a call that `ok` does not allow. -/
def run (ok : View S τ σ κ α → τ → κ → Prop) [∀ v t c, Decidable (ok v t c)] :
    List (Label τ χ κ) → Pool S τ σ κ α → Option (Pool S τ σ κ α)
  | [], pl => some pl
  | l :: ls, pl =>
      if Allowed ok pl.view l then (S'.step l pl).bind (run ok ls) else none

variable {S'}

theorem Reach.run {ok : View S τ σ κ α → τ → κ → Prop} [∀ v t c, Decidable (ok v t c)] {s : σ} :
    ∀ (ls : List (Label τ χ κ)) {pl pl' : Pool S τ σ κ α}, S'.Reach ok s pl →
      S'.run ok ls pl = some pl' → S'.Reach ok s pl' := by
  intro ls
  induction ls with
  | nil =>
      intro pl pl' h hrun
      rw [Sys.run] at hrun
      cases hrun
      exact h
  | cons l ls ih =>
      intro pl pl' h hrun
      rw [Sys.run] at hrun
      split at hrun
      · rename_i hok
        obtain ⟨pl₁, hstep, hrest⟩ := Option.bind_eq_some_iff.mp hrun
        exact ih (h.step l hok hstep) hrest
      · cases hrun

/-- A longer schedule goes on where the shorter one ended. -/
theorem run_append {ok : View S τ σ κ α → τ → κ → Prop} [∀ v t c, Decidable (ok v t c)]
    {ls' : List (Label τ χ κ)} {pl₁ : Pool S τ σ κ α} :
    ∀ (ls : List (Label τ χ κ)) {pl pl' : Pool S τ σ κ α}, S'.run ok ls pl = some pl₁ →
      S'.run ok (ls ++ ls') pl = some pl' → S'.run ok ls' pl₁ = some pl' := by
  intro ls
  induction ls with
  | nil =>
      intro pl pl' hrun hall
      rw [Sys.run] at hrun
      cases hrun
      exact hall
  | cons l ls ih =>
      intro pl pl' hrun hall
      rw [List.cons_append, Sys.run] at hall
      rw [Sys.run] at hrun
      split at hrun
      · rename_i hok
        rw [if_pos hok] at hall
        obtain ⟨pl₂, hstep, hrest⟩ := Option.bind_eq_some_iff.mp hrun
        rw [hstep] at hall
        exact ih hrest hall
      · cases hrun

/-- A step adds one event to the trace. -/
theorem step_trace {l : Label τ χ κ} {pl pl' : Pool S τ σ κ α} (h : S'.step l pl = some pl') :
    ∃ e, pl'.view.trace = pl.view.trace ++ [e] := by
  cases l with
  | call t c =>
      obtain ⟨-, rfl⟩ := step_call h
      exact ⟨_, rfl⟩
  | prim t x =>
      obtain ⟨id, c, p, k, r, s, -, -, -, rfl⟩ := step_prim h
      exact ⟨_, rfl⟩
  | ret t =>
      obtain ⟨id, c, a, -, -, rfl⟩ := step_ret h
      exact ⟨_, rfl⟩

/-- What has happened stays in the trace. -/
theorem run_trace {ok : View S τ σ κ α → τ → κ → Prop} [∀ v t c, Decidable (ok v t c)]
    {e : Event S τ κ α} :
    ∀ (ls : List (Label τ χ κ)) {pl pl' : Pool S τ σ κ α}, S'.run ok ls pl = some pl' →
      e ∈ pl.view.trace → e ∈ pl'.view.trace := by
  intro ls
  induction ls with
  | nil =>
      intro pl pl' hrun he
      rw [Sys.run] at hrun
      cases hrun
      exact he
  | cons l ls ih =>
      intro pl pl' hrun he
      rw [Sys.run] at hrun
      split at hrun
      · obtain ⟨pl₁, hstep, hrest⟩ := Option.bind_eq_some_iff.mp hrun
        obtain ⟨e', htrace⟩ := step_trace hstep
        refine ih hrest ?_
        rw [htrace]
        exact List.mem_append_left _ he
      · cases hrun

/-- A weaker promise of the clients allows more runs. -/
theorem Reach.mono {ok ok' : View S τ σ κ α → τ → κ → Prop} (hle : ∀ v t c, ok v t c → ok' v t c)
    {s : σ} {pl : Pool S τ σ κ α} (h : S'.Reach ok s pl) : S'.Reach ok' s pl := by
  induction h with
  | start => exact .start
  | step _ l hok hstep ih =>
      refine ih.step l ?_ hstep
      cases l with
      | call t c => exact hle _ _ _ hok
      | prim t x => trivial
      | ret t => trivial

end Sys

/-! ### Calls and their events -/

/-- The primitives that call `id` has performed. -/
def prims (tr : List (Event S τ κ α)) (id : Nat) : List S.Done :=
  tr.filterMap fun
    | .prim id' _ p r => if id' = id then some ⟨p, r⟩ else none
    | _ => none

@[simp] theorem prims_nil (id : Nat) : prims ([] : List (Event S τ κ α)) id = [] := rfl

@[simp] theorem prims_snoc_call (tr : List (Event S τ κ α)) (id id' : Nat) (t : τ) (c : κ) :
    prims (tr ++ [.call id' t c]) id = prims tr id := by
  simp [prims]

@[simp] theorem prims_snoc_ret (tr : List (Event S τ κ α)) (id id' : Nat) (t : τ) (c : κ) (a : α) :
    prims (tr ++ [.ret id' t c a]) id = prims tr id := by
  simp [prims]

theorem prims_snoc_self (tr : List (Event S τ κ α)) (id : Nat) (t : τ) (p : S.Op) (r : S.Res p) :
    prims (tr ++ [.prim id t p r]) id = prims tr id ++ [⟨p, r⟩] := by
  simp [prims]

theorem prims_snoc_of_ne (tr : List (Event S τ κ α)) {id id' : Nat} (h : id' ≠ id) (t : τ)
    (p : S.Op) (r : S.Res p) : prims (tr ++ [.prim id' t p r]) id = prims tr id := by
  simp [prims, h]

theorem mem_prims {tr : List (Event S τ κ α)} {id : Nat} {t : τ} {p : S.Op} {r : S.Res p}
    (h : .prim id t p r ∈ tr) : ⟨p, r⟩ ∈ prims tr id :=
  List.mem_filterMap.mpr ⟨_, h, if_pos rfl⟩

/-- The books of a pool: calls are numbered once, and events belong to numbered calls. -/
structure Books (v : View S τ σ κ α) : Prop where
  below : ∀ t id c, v.calls t = some (id, c) → id < v.next
  called : ∀ t id c, v.calls t = some (id, c) → .call id t c ∈ v.trace
  apart : ∀ t u id c c', v.calls t = some (id, c) → v.calls u = some (id, c') → t = u
  pending : ∀ t id c u c' a, v.calls t = some (id, c) → .ret id u c' a ∉ v.trace
  called_below : ∀ id t c, .call id t c ∈ v.trace → id < v.next
  ret_called : ∀ id t c a, .ret id t c a ∈ v.trace → .call id t c ∈ v.trace
  once : ∀ id t u c c', .call id t c ∈ v.trace → .call id u c' ∈ v.trace → t = u ∧ c = c'
  fresh : ∀ id, v.next ≤ id → prims v.trace id = []

namespace Books

variable [DecidableEq τ] {v : View S τ σ κ α}

omit [DecidableEq τ] in
theorem ret_below (h : Books v) {id : Nat} {t : τ} {c : κ} {a : α}
    (hret : .ret id t c a ∈ v.trace) : id < v.next :=
  h.called_below id t c (h.ret_called id t c a hret)

theorem call (h : Books v) (t : τ) (c : κ) : Books (v.call t c) := by
  refine ⟨?_, ?_, ?_, ?_, ?_, ?_, ?_, ?_⟩
  · intro u id c' hu
    by_cases hut : u = t
    · subst hut
      have hid : v.next = id ∧ c = c' := by simpa using hu
      simp [hid.1]
    · exact Nat.lt_succ_of_lt (h.below u id c' (by simpa [hut] using hu))
  · intro u id c' hu
    by_cases hut : u = t
    · subst hut
      have hid : v.next = id ∧ c = c' := by simpa using hu
      simp [hid.1, hid.2]
    · exact List.mem_append_left _ (h.called u id c' (by simpa [hut] using hu))
  · intro u₁ u₂ id c₁ c₂ h₁ h₂
    by_cases hu₁ : u₁ = t
    · by_cases hu₂ : u₂ = t
      · exact hu₁.trans hu₂.symm
      · subst hu₁
        have hid : v.next = id ∧ c = c₁ := by simpa using h₁
        exact absurd (h.below u₂ id c₂ (by simpa [hu₂] using h₂)) (by omega)
    · by_cases hu₂ : u₂ = t
      · subst hu₂
        have hid : v.next = id ∧ c = c₂ := by simpa using h₂
        exact absurd (h.below u₁ id c₁ (by simpa [hu₁] using h₁)) (by omega)
      · exact h.apart u₁ u₂ id c₁ c₂ (by simpa [hu₁] using h₁) (by simpa [hu₂] using h₂)
  · intro u id c₁ u' c' a hu hret
    have hold : .ret id u' c' a ∈ v.trace := by simpa using hret
    by_cases hut : u = t
    · subst hut
      have hid : v.next = id ∧ c = c₁ := by simpa using hu
      exact absurd (h.ret_below hold) (by omega)
    · exact h.pending u id c₁ u' c' a (by simpa [hut] using hu) hold
  · intro id u c' hcall
    rcases List.mem_append.mp hcall with hold | hnew
    · exact Nat.lt_succ_of_lt (h.called_below id u c' hold)
    · have hid : id = v.next ∧ u = t ∧ c' = c := by simpa using hnew
      simp [hid.1]
  · intro id u c' a hret
    exact List.mem_append_left _ (h.ret_called id u c' a (by simpa using hret))
  · intro id u₁ u₂ c₁ c₂ h₁ h₂
    rcases List.mem_append.mp h₁ with hold₁ | hnew₁
    · rcases List.mem_append.mp h₂ with hold₂ | hnew₂
      · exact h.once id u₁ u₂ c₁ c₂ hold₁ hold₂
      · have hev : id = v.next ∧ u₂ = t ∧ c₂ = c := by simpa using hnew₂
        exact absurd (h.called_below id u₁ c₁ hold₁) (by omega)
    · have hev₁ : id = v.next ∧ u₁ = t ∧ c₁ = c := by simpa using hnew₁
      rcases List.mem_append.mp h₂ with hold₂ | hnew₂
      · exact absurd (h.called_below id u₂ c₂ hold₂) (by omega)
      · have hev₂ : id = v.next ∧ u₂ = t ∧ c₂ = c := by simpa using hnew₂
        rw [hev₁.2.1, hev₁.2.2, hev₂.2.1, hev₂.2.2]
        exact ⟨rfl, rfl⟩
  · intro id hid
    rw [View.call_trace, prims_snoc_call]
    exact h.fresh id (Nat.le_of_succ_le hid)

omit [DecidableEq τ] in
theorem prim (h : Books v) {t : τ} {id : Nat} {c : κ} (hc : v.calls t = some (id, c))
    {p : S.Op} (r : S.Res p) (s : σ) : Books (v.prim id t p r s) := by
  refine ⟨h.below, ?_, h.apart, ?_, ?_, ?_, ?_, ?_⟩
  · intro u id' c' hu
    exact List.mem_append_left _ (h.called u id' c' hu)
  · intro u id' c₁ u' c' a hu hret
    exact h.pending u id' c₁ u' c' a hu (by simpa using hret)
  · intro id' u c' hcall
    exact h.called_below id' u c' (by simpa using hcall)
  · intro id' u c' a hret
    exact List.mem_append_left _ (h.ret_called id' u c' a (by simpa using hret))
  · intro id' u₁ u₂ c₁ c₂ h₁ h₂
    exact h.once id' u₁ u₂ c₁ c₂ (by simpa using h₁) (by simpa using h₂)
  · intro id' hid'
    have hlt := h.below t id c hc
    have hne : id ≠ id' := Nat.ne_of_lt (Nat.lt_of_lt_of_le hlt hid')
    rw [View.prim_trace, prims_snoc_of_ne _ hne]
    exact h.fresh id' hid'

theorem ret (h : Books v) {t : τ} {id : Nat} {c : κ} (hc : v.calls t = some (id, c)) (a : α) :
    Books (v.ret id t c a) := by
  refine ⟨?_, ?_, ?_, ?_, ?_, ?_, ?_, ?_⟩
  · intro u id' c' hu
    by_cases hut : u = t
    · subst hut
      simp at hu
    · exact h.below u id' c' (by simpa [hut] using hu)
  · intro u id' c' hu
    by_cases hut : u = t
    · subst hut
      simp at hu
    · exact List.mem_append_left _ (h.called u id' c' (by simpa [hut] using hu))
  · intro u₁ u₂ id' c₁ c₂ h₁ h₂
    by_cases hu₁ : u₁ = t
    · subst hu₁
      simp at h₁
    · by_cases hu₂ : u₂ = t
      · subst hu₂
        simp at h₂
      · exact h.apart u₁ u₂ id' c₁ c₂ (by simpa [hu₁] using h₁) (by simpa [hu₂] using h₂)
  · intro u id' c₁ u' c' a' hu hret
    by_cases hut : u = t
    · subst hut
      simp at hu
    · have hu' : v.calls u = some (id', c₁) := by simpa [hut] using hu
      rcases List.mem_append.mp hret with hold | hnew
      · exact h.pending u id' c₁ u' c' a' hu' hold
      · have hid : id' = id := by
          have hev : id' = id ∧ u' = t ∧ c' = c ∧ a' = a := by simpa using hnew
          exact hev.1
        subst hid
        exact hut (h.apart u t id' c₁ c hu' hc)
  · intro id' u c' hcall
    exact h.called_below id' u c' (by simpa using hcall)
  · intro id' u c' a' hret
    refine List.mem_append_left _ ?_
    rcases List.mem_append.mp hret with hold | hnew
    · exact h.ret_called id' u c' a' hold
    · have hev : id' = id ∧ u = t ∧ c' = c ∧ a' = a := by simpa using hnew
      obtain ⟨rfl, rfl, rfl, -⟩ := hev
      exact h.called u id' c' hc
  · intro id' u₁ u₂ c₁ c₂ h₁ h₂
    exact h.once id' u₁ u₂ c₁ c₂ (by simpa using h₁) (by simpa using h₂)
  · intro id' hid'
    rw [View.ret_trace, prims_snoc_ret]
    exact h.fresh id' hid'

end Books

namespace Sys

variable [DecidableEq τ] {S' : Sys S τ χ σ κ α}

theorem Reach.books {ok : View S τ σ κ α → τ → κ → Prop} {s : σ} {pl : Pool S τ σ κ α}
    (h : S'.Reach ok s pl) : Books pl.view := by
  induction h with
  | start =>
      refine ⟨?_, ?_, ?_, ?_, ?_, ?_, ?_, ?_⟩ <;> simp [Sys.start, View.start]
  | step _ l hok hstep ih =>
      cases l with
      | call t c =>
          obtain ⟨-, rfl⟩ := step_call hstep
          exact ih.call t c
      | prim t x =>
          obtain ⟨id, c, p, k, r, s, hc, -, -, rfl⟩ := step_prim hstep
          exact ih.prim hc r s
      | ret t =>
          obtain ⟨id, c, a, hc, -, rfl⟩ := step_ret hstep
          exact ih.ret hc a

/-- What the clients promise of every call they make holds of every call in the trace. -/
theorem Reach.call_mem {ok : View S τ σ κ α → τ → κ → Prop} {P : κ → Prop}
    (hP : ∀ v t c, ok v t c → P c) {s : σ} {pl : Pool S τ σ κ α} (h : S'.Reach ok s pl) :
    ∀ id t c, .call id t c ∈ pl.view.trace → P c := by
  induction h with
  | start =>
      intro id t c hc
      exact absurd hc List.not_mem_nil
  | @step pl pl' _ l hok hstep ih =>
      cases l with
      | call t c =>
          obtain ⟨-, rfl⟩ := step_call hstep
          intro id u c' hc'
          rcases List.mem_append.mp hc' with hold | hnew
          · exact ih id u c' hold
          · have hev : id = pl.view.next ∧ u = t ∧ c' = c := by simpa using hnew
            rw [hev.2.2]
            exact hP _ _ _ hok
      | prim t x =>
          obtain ⟨id', c, p, k, r, s, -, -, -, rfl⟩ := step_prim hstep
          intro id u c' hc'
          exact ih id u c' (by simpa using hc')
      | ret t =>
          obtain ⟨id', c, a, -, -, rfl⟩ := step_ret hstep
          intro id u c' hc'
          exact ih id u c' (by simpa using hc')

/-- Every primitive in the trace belongs to a call, whose program may come to it. -/
theorem Reach.prim_mem {ok : View S τ σ κ α → τ → κ → Prop} {P : κ → S.Op → Prop}
    (hP : ∀ c, (S'.body c).Every (P c)) {s : σ} {pl : Pool S τ σ κ α} (h : S'.Reach ok s pl) :
    ∀ id t p r, .prim id t p r ∈ pl.view.trace → ∃ c, .call id t c ∈ pl.view.trace ∧ P c p := by
  have hrest : (∀ id t p r, .prim id t p r ∈ pl.view.trace →
        ∃ c, .call id t c ∈ pl.view.trace ∧ P c p) ∧
      ∀ t id c m, pl.view.calls t = some (id, c) → pl.prog t = some m → m.Every (P c) := by
    induction h with
    | start =>
        refine ⟨?_, ?_⟩
        · intro id t p r hp
          exact absurd hp List.not_mem_nil
        · intro t id c m hc
          simp [Sys.start] at hc
    | @step pl pl' hreach l hok hstep ih =>
        obtain ⟨hprims, hprogs⟩ := ih
        cases l with
        | call t c =>
            obtain ⟨-, rfl⟩ := step_call hstep
            refine ⟨?_, ?_⟩
            · intro id u p r hp
              obtain ⟨c', hc', hPp⟩ := hprims id u p r (by simpa using hp)
              exact ⟨c', List.mem_append_left _ hc', hPp⟩
            · intro u id c' m hc hm
              by_cases hu : u = t
              · subst hu
                simp only [View.call_calls, Function.update_self, Option.some.injEq,
                  Prod.mk.injEq] at hc hm
                rw [← hm, ← hc.2]
                exact hP c
              · exact hprogs u id c' m (by simpa [hu] using hc) (by simpa [hu] using hm)
        | prim t x =>
            obtain ⟨id, c, p, k, r, s, hc, hp, -, rfl⟩ := step_prim hstep
            have hstep' : P c p ∧ ∀ r, (k r).Every (P c) := hprogs t id c _ hc hp
            refine ⟨?_, ?_⟩
            · intro id' u q r' hq
              rcases List.mem_append.mp hq with hold | hnew
              · obtain ⟨c', hc', hPq⟩ := hprims id' u q r' hold
                exact ⟨c', List.mem_append_left _ hc', hPq⟩
              · cases List.mem_singleton.mp hnew
                exact ⟨c, List.mem_append_left _ (hreach.books.called t id c hc), hstep'.1⟩
            · intro u id' c' m hc' hm
              rw [View.prim_calls] at hc'
              by_cases hu : u = t
              · subst hu
                rw [hc] at hc'
                cases hc'
                split at hm
                · exact hprogs u id c m hc hm
                · simp only [Function.update_self, Option.some.injEq] at hm
                  rw [← hm]
                  exact hstep'.2 r
              · refine hprogs u id' c' m hc' ?_
                split at hm
                · exact hm
                · simpa [hu] using hm
        | ret t =>
            obtain ⟨id, c, a, -, -, rfl⟩ := step_ret hstep
            refine ⟨?_, ?_⟩
            · intro id' u p r hp
              obtain ⟨c', hc', hPp⟩ := hprims id' u p r (by simpa using hp)
              exact ⟨c', List.mem_append_left _ hc', hPp⟩
            · intro u id' c' m hc' hm
              by_cases hu : u = t
              · subst hu
                simp at hc'
              · exact hprogs u id' c' m (by simpa [hu] using hc') (by simpa [hu] using hm)
  exact hrest.1

/-- What every step answers is so of every primitive in the trace. -/
theorem Reach.answer_mem {ok : View S τ σ κ α → τ → κ → Prop} {s₀ : σ}
    {P : (p : S.Op) → S.Res p → Prop}
    (hP : ∀ {pl : Pool S τ σ κ α} {t id c p k x r s}, S'.Reach ok s₀ pl →
      pl.view.calls t = some (id, c) → pl.prog t = some (.step p k) →
      S'.exec x t p pl.view.shared = some (r, s) → P p r)
    {pl : Pool S τ σ κ α} (h : S'.Reach ok s₀ pl) :
    ∀ id t p r, .prim id t p r ∈ pl.view.trace → P p r := by
  induction h with
  | start =>
      intro id t p r hp
      exact absurd hp List.not_mem_nil
  | @step pl pl' hreach l hok hstep ih =>
      intro id t p r hp
      cases l with
      | call u c =>
          obtain ⟨-, rfl⟩ := step_call hstep
          exact ih id t p r (by simpa using hp)
      | prim u x =>
          obtain ⟨id', c, q, k, r', s, hc, hq, hexec, rfl⟩ := step_prim hstep
          rcases List.mem_append.mp hp with hold | hnew
          · exact ih id t p r hold
          · cases List.mem_singleton.mp hnew
            exact hP hreach hc hq hexec
      | ret u =>
          obtain ⟨id', c, a, -, -, rfl⟩ := step_ret hstep
          exact ih id t p r (by simpa using hp)

/-- What a call has performed was performed by its own thread. -/
theorem Reach.prim_own {ok : View S τ σ κ α → τ → κ → Prop} {s : σ} {pl : Pool S τ σ κ α}
    (h : S'.Reach ok s pl) {id : Nat} {t : τ} {c : κ} (hc : .call id t c ∈ pl.view.trace)
    {d : S.Done} (hd : d ∈ prims pl.view.trace id) : .prim id t d.1 d.2 ∈ pl.view.trace := by
  obtain ⟨e, he, hsome⟩ := List.mem_filterMap.mp hd
  cases e with
  | call _ _ _ => cases hsome
  | ret _ _ _ _ => cases hsome
  | prim id' u p r =>
      have hid : id' = id ∧ (⟨p, r⟩ : S.Done) = d := by simpa using hsome
      obtain ⟨rfl, rfl⟩ := hid
      obtain ⟨c', hc', -⟩ := h.prim_mem (P := fun _ _ => True)
        (fun c => Prog.every_of_forall (fun _ => trivial) _) _ _ _ _ he
      rw [(h.books.once _ _ _ _ _ hc hc').1]
      exact he

/-- A call has returned what its program comes to, answered as the call was. -/
theorem Reach.yields (hM : ∀ p r, S'.again p r = false) {ok : View S τ σ κ α → τ → κ → Prop} {s : σ}
    {pl : Pool S τ σ κ α} (h : S'.Reach ok s pl) {id : Nat} {t : τ} {c : κ} {a : α}
    (ha : .ret id t c a ∈ pl.view.trace) : (S'.body c).Yields a (prims pl.view.trace id) := by
  have hrest : (∀ id t c a, .ret id t c a ∈ pl.view.trace →
        (S'.body c).Yields a (prims pl.view.trace id)) ∧
      ∀ t id c m, pl.view.calls t = some (id, c) → pl.prog t = some m →
        ∀ a es, m.Yields a es → (S'.body c).Yields a (prims pl.view.trace id ++ es) := by
    clear ha
    induction h with
    | start =>
        refine ⟨?_, ?_⟩
        · intro id t c a ha
          exact absurd ha List.not_mem_nil
        · intro t id c m hc
          simp [Sys.start] at hc
    | @step pl pl' hreach l hok hstep ih =>
        obtain ⟨hrets, hprogs⟩ := ih
        cases l with
        | call t c =>
            obtain ⟨-, rfl⟩ := step_call hstep
            refine ⟨?_, ?_⟩
            · intro id u c' a ha
              rw [View.call_trace, prims_snoc_call]
              exact hrets id u c' a (by simpa using ha)
            · intro u id c' m hc hm a es hes
              rw [View.call_trace, prims_snoc_call]
              by_cases hu : u = t
              · subst hu
                simp only [View.call_calls, Function.update_self, Option.some.injEq,
                  Prod.mk.injEq] at hc hm
                rw [← hc.1, hreach.books.fresh _ (Nat.le_refl _), ← hc.2, hm]
                exact hes
              · exact hprogs u id c' m (by simpa [hu] using hc) (by simpa [hu] using hm) a es hes
        | prim t x =>
            obtain ⟨id, c, p, k, r, s', hc, hp, -, rfl⟩ := step_prim hstep
            refine ⟨?_, ?_⟩
            · intro id' u c' a ha
              have hold : .ret id' u c' a ∈ pl.view.trace := by simpa using ha
              have hne : id ≠ id' := by
                rintro rfl
                exact hreach.books.pending t id c u c' a hc hold
              rw [View.prim_trace, prims_snoc_of_ne _ hne]
              exact hrets id' u c' a hold
            · intro u id' c' m hc' hm a es hes
              rw [View.prim_calls] at hc'
              rw [View.prim_trace]
              by_cases hu : u = t
              · subst hu
                rw [hc] at hc'
                cases hc'
                rw [hM] at hm
                have hm' : k r = m := by simpa using hm
                subst hm'
                rw [prims_snoc_self, List.append_assoc]
                exact hprogs u id c _ hc hp a _ ⟨r, es, rfl, hes⟩
              · have hne : id ≠ id' := by
                  rintro rfl
                  exact hu (hreach.books.apart u t id c' c hc' hc)
                rw [prims_snoc_of_ne _ hne]
                refine hprogs u id' c' m hc' ?_ a es hes
                simpa [hM, hu] using hm
        | ret t =>
            obtain ⟨id, c, a, hc, hp, rfl⟩ := step_ret hstep
            refine ⟨?_, ?_⟩
            · intro id' u c' a' ha
              rw [View.ret_trace, prims_snoc_ret]
              rcases List.mem_append.mp ha with hold | hnew
              · exact hrets id' u c' a' hold
              · cases List.mem_singleton.mp hnew
                simpa using hprogs t id c _ hc hp a [] ⟨rfl, rfl⟩
            · intro u id' c' m hc' hm a' es hes
              rw [View.ret_trace, prims_snoc_ret]
              by_cases hu : u = t
              · subst hu
                simp at hc'
              · exact hprogs u id' c' m (by simpa [hu] using hc') (by simpa [hu] using hm) a' es hes
  exact hrest.1 id t c a ha

/-- A trace that has been was the trace of a pool reached. -/
theorem Reach.upto {ok : View S τ σ κ α → τ → κ → Prop} {s : σ} {pl : Pool S τ σ κ α}
    (h : S'.Reach ok s pl) : ∀ {tr₁ tr₂ : List (Event S τ κ α)}, pl.view.trace = tr₁ ++ tr₂ →
      ∃ pl₁, S'.Reach ok s pl₁ ∧ pl₁.view.trace = tr₁ := by
  induction h with
  | start =>
      intro tr₁ tr₂ htr
      have hnil : tr₁ = [] := (List.append_eq_nil_iff.mp htr.symm).1
      subst hnil
      exact ⟨Sys.start s, .start, rfl⟩
  | @step pl pl' hreach l hok hstep ih =>
      intro tr₁ tr₂ htr
      obtain ⟨e, he⟩ := step_trace hstep
      rcases List.eq_nil_or_concat tr₂ with rfl | ⟨tr₃, e', rfl⟩
      · exact ⟨pl', hreach.step l hok hstep, by simpa using htr⟩
      · rw [he, List.concat_eq_append, ← List.append_assoc] at htr
        exact ih (List.append_inj_left' htr rfl)

end Sys

/-! ### Moments of a trace -/

/-- Where an element of `tr ++ [e]` stands: it is the last one, or stands in `tr`. -/
theorem split_snoc {ε : Type} {tr A B : List ε} {e a : ε} (h : tr ++ [e] = A ++ a :: B) :
    (tr = A ∧ e = a ∧ B = []) ∨ ∃ B', B = B' ++ [e] ∧ tr = A ++ a :: B' := by
  rcases List.eq_nil_or_concat B with rfl | ⟨B', b, rfl⟩
  · obtain ⟨rfl, he⟩ := List.append_inj' h rfl
    cases he
    exact Or.inl ⟨rfl, rfl, rfl⟩
  · rw [List.concat_eq_append, ← List.cons_append, ← List.append_assoc] at h
    obtain ⟨rfl, he⟩ := List.append_inj' h rfl
    cases he
    exact Or.inr ⟨B', by rw [List.concat_eq_append], rfl⟩

/-- At some event of the trace, `P` held of that event and of what came before it. -/
def At {ε : Type} (tr : List ε) (P : List ε → ε → Prop) : Prop :=
  ∃ tr₁ e tr₂, tr = tr₁ ++ e :: tr₂ ∧ P tr₁ e

namespace At

variable {ε : Type} {tr : List ε} {P Q : List ε → ε → Prop}

theorem snoc (h : At tr P) (e : ε) : At (tr ++ [e]) P := by
  obtain ⟨tr₁, e₁, tr₂, rfl, hP⟩ := h
  exact ⟨tr₁, e₁, tr₂ ++ [e], by simp, hP⟩

theorem last {e : ε} (h : P tr e) : At (tr ++ [e]) P := ⟨tr, e, [], rfl, h⟩

theorem snoc_iff {e : ε} : At (tr ++ [e]) P ↔ At tr P ∨ P tr e := by
  refine ⟨?_, ?_⟩
  · rintro ⟨tr₁, e₁, tr₂, htr, hP⟩
    rcases split_snoc htr with ⟨rfl, rfl, -⟩ | ⟨tr₃, -, rfl⟩
    · exact Or.inr hP
    · exact Or.inl ⟨tr₁, e₁, tr₃, rfl, hP⟩
  · rintro (h | h)
    · exact h.snoc e
    · exact last h

theorem of_get (i : Nat) (hi : i < tr.length) (h : P (tr.take i) tr[i]) : At tr P := by
  refine ⟨tr.take i, tr[i], tr.drop (i + 1), ?_, h⟩
  rw [List.getElem_cons_drop, List.take_append_drop]

/-- Check every moment of `past ++ rest` that is not in `past`. -/
def checks (ok : List ε → ε → Bool) : List ε → List ε → Bool
  | _, [] => true
  | past, e :: rest => ok past e && checks ok (past ++ [e]) rest

/-- What a check excludes has not happened. -/
theorem not_of_checks {ok : List ε → ε → Bool} (hP : ∀ tr₁ e, P tr₁ e → ok tr₁ e = false)
    (h : checks ok [] tr = true) : ¬ At tr P := by
  have hsplit : ∀ (rest past tr₁ : List ε) (e : ε) (tr₂ : List ε), checks ok past rest = true →
      rest = tr₁ ++ e :: tr₂ → ok (past ++ tr₁) e = true := by
    intro rest
    induction rest with
    | nil =>
        intro past tr₁ e tr₂ _ heq
        simp at heq
    | cons a rest ih =>
        intro past tr₁ e tr₂ hchecks heq
        simp only [checks, Bool.and_eq_true] at hchecks
        cases tr₁ with
        | nil =>
            simp only [List.nil_append, List.cons.injEq] at heq
            rw [List.append_nil, ← heq.1]
            exact hchecks.1
        | cons b tr₁ =>
            simp only [List.cons_append, List.cons.injEq] at heq
            have hrest := ih (past ++ [a]) tr₁ e tr₂ hchecks.2 heq.2
            rw [heq.1] at hrest
            simpa using hrest
  rintro ⟨tr₁, e, tr₂, htr, he⟩
  have htrue := hsplit tr [] tr₁ e tr₂ h htr
  rw [List.nil_append, hP tr₁ e he] at htrue
  cases htrue

theorem mono (h : At tr P) (hle : ∀ tr₁ e, P tr₁ e → Q tr₁ e) : At tr Q := by
  obtain ⟨tr₁, e, tr₂, htr, hP⟩ := h
  exact ⟨tr₁, e, tr₂, htr, hle _ _ hP⟩

end At

/-- At every event of the trace, `P` held of that event and of what came before it. -/
def Always {ε : Type} (tr : List ε) (P : List ε → ε → Prop) : Prop :=
  ∀ tr₁ e tr₂, tr = tr₁ ++ e :: tr₂ → P tr₁ e

namespace Always

variable {ε : Type} {tr : List ε} {P : List ε → ε → Prop}

theorem nil : Always ([] : List ε) P := by
  intro tr₁ e tr₂ htr
  exact absurd htr (by simp)

theorem snoc {e : ε} (h : Always tr P) (he : P tr e) : Always (tr ++ [e]) P := by
  intro tr₁ e₁ tr₂ htr
  rcases split_snoc htr with ⟨rfl, rfl, -⟩ | ⟨tr₃, -, rfl⟩
  · exact he
  · exact h tr₁ e₁ tr₃ rfl

theorem get (h : Always tr P) (i : Nat) (hi : i < tr.length) : P (tr.take i) tr[i] := by
  refine h (tr.take i) tr[i] (tr.drop (i + 1)) ?_
  rw [List.getElem_cons_drop, List.take_append_drop]

end Always

end Interleave
