/-
The threads that `tt_thread_create` starts, at work.

`pthread_create` makes a thread of the OS.  From then on the OS may start it at any
moment, whatever its creator has still to do; once started it runs its function and at
some point returns from it.  Nothing tells the API about any of this, apart from
`pthread_join`, which succeeds only on a thread that has returned.

A `World` is a pool of clients together with how far each of these threads is.  The
threads are numbered in the order in which they were made.
-/
import TinyTools.Thread

namespace TinyTools

open Interleave

variable {N : Nat} {H τ : Type}

/-- How far a thread is with its function. -/
inductive RunPhase : Type
  | ready
  | running
  | returned
  deriving DecidableEq

/-- The number of the latest thread in `os` whose record was at `a`. -/
def latest (a : Addr) : List (OsThread H) → Option Nat
  | [] => none
  | o :: os => if o.record = a then some os.length else latest a os

namespace ThreadState

/-- The thread with number `n`. -/
def osThread (s : ThreadState N H) (n : Nat) : Option (OsThread H) := s.os.reverse[n]?

/-- The number of the thread started for the record now at `a`. -/
def threadOf (s : ThreadState N H) (a : Addr) : Option Nat := latest a s.os

end ThreadState

/-- The clients of the API, and the threads they have started. -/
structure World (N : Nat) (H τ : Type) where
  pool : Pool (threadSig H) τ (ThreadState N H) (ThreadCall H) TableVal
  phase : Nat → RunPhase

/-- One step: of a client, or of the thread with a number. -/
inductive WorldLabel (H τ : Type) : Type
  | api (l : Label τ (ThreadChoice H) (ThreadCall H))
  | start (n : Nat)
  | work (n : Nat)
  | finish (n : Nat)

namespace World

/-- Program start, with the thread API in the state `s`. -/
def start (s : ThreadState N H) : World N H τ := ⟨Sys.start s, fun _ => .ready⟩

/-- The state of the thread API. -/
def shared (w : World N H τ) : ThreadState N H := w.pool.view.shared

/-- How far the thread of the record at `a` is. -/
def phaseOf (w : World N H τ) (a : Addr) : Option RunPhase := (w.shared.threadOf a).map w.phase

variable [DecidableEq H]

/-- Every joinable thread with handle `h` has returned from its function. -/
def returned (w : World N H τ) (h : H) : Bool :=
  (List.range w.shared.os.length).all fun n =>
    (w.shared.osThread n).all fun o =>
      decide (o.handle = h → o.status = .joinable → w.phase n = .returned)

/-- A `pthread_join` does not succeed before the thread has returned. -/
def awaited (w : World N H τ) : Label τ (ThreadChoice H) (ThreadCall H) → Bool
  | .prim t .ok =>
      match w.pool.prog t with
      | some (.step (.inl (.pthreadJoin (some h))) _) => w.returned h
      | _ => true
  | _ => true

variable [DecidableEq τ]

/-- One step; `none` where it is not possible. -/
def step (w : World N H τ) : WorldLabel H τ → Option (World N H τ)
  | .api l =>
      if w.awaited l then
        ((threadSys N H τ).step l w.pool).map fun pool => { w with pool := pool }
      else none
  | .start n =>
      if n < w.shared.os.length ∧ w.phase n = .ready then
        some { w with phase := Function.update w.phase n .running }
      else none
  | .work n => if w.phase n = .running then some w else none
  | .finish n =>
      if w.phase n = .running then
        some { w with phase := Function.update w.phase n .returned }
      else none

/-- The worlds that runs from `s` reach, every step being one that `ok` allows. -/
inductive Reach (ok : World N H τ → WorldLabel H τ → Prop) (s : ThreadState N H) :
    World N H τ → Prop
  | start : Reach ok s (World.start s)
  | step {w w' : World N H τ} (h : Reach ok s w) (l : WorldLabel H τ) (hok : ok w l)
      (hstep : w.step l = some w') : Reach ok s w'

/-- Follow a schedule, refusing a step that `ok` does not allow. -/
def run (ok : World N H τ → WorldLabel H τ → Prop) [∀ w l, Decidable (ok w l)] :
    List (WorldLabel H τ) → World N H τ → Option (World N H τ)
  | [], w => some w
  | l :: ls, w => if ok w l then (w.step l).bind (run ok ls) else none

/-! ### Steps and runs -/

theorem step_api {w w' : World N H τ} {l : Label τ (ThreadChoice H) (ThreadCall H)}
    (h : w.step (.api l) = some w') :
    w.awaited l = true ∧ ∃ pool, (threadSys N H τ).step l w.pool = some pool ∧
      w' = { w with pool := pool } := by
  simp only [step] at h
  split at h
  · rename_i hawaited
    obtain ⟨pool, hstep, rfl⟩ := Option.map_eq_some_iff.mp h
    exact ⟨hawaited, pool, hstep, rfl⟩
  · cases h

theorem step_start {w w' : World N H τ} {n : Nat} (h : w.step (.start n) = some w') :
    n < w.shared.os.length ∧ w.phase n = .ready ∧
      w' = { w with phase := Function.update w.phase n .running } := by
  simp only [step] at h
  split at h
  · rename_i hready
    cases h
    exact ⟨hready.1, hready.2, rfl⟩
  · cases h

theorem step_work {w w' : World N H τ} {n : Nat} (h : w.step (.work n) = some w') :
    w.phase n = .running ∧ w' = w := by
  simp only [step] at h
  split at h
  · rename_i hrunning
    cases h
    exact ⟨hrunning, rfl⟩
  · cases h

theorem step_finish {w w' : World N H τ} {n : Nat} (h : w.step (.finish n) = some w') :
    w.phase n = .running ∧ w' = { w with phase := Function.update w.phase n .returned } := by
  simp only [step] at h
  split at h
  · rename_i hrunning
    cases h
    exact ⟨hrunning, rfl⟩
  · cases h

theorem Reach.run {ok : World N H τ → WorldLabel H τ → Prop} [∀ w l, Decidable (ok w l)]
    {s : ThreadState N H} : ∀ (ls : List (WorldLabel H τ)) {w w' : World N H τ}, Reach ok s w →
      World.run ok ls w = some w' → Reach ok s w' := by
  intro ls
  induction ls with
  | nil =>
      intro w w' h hrun
      rw [World.run] at hrun
      cases hrun
      exact h
  | cons l ls ih =>
      intro w w' h hrun
      rw [World.run] at hrun
      split at hrun
      · rename_i hok
        obtain ⟨w₁, hstep, hrest⟩ := Option.bind_eq_some_iff.mp hrun
        exact ih (h.step l hok hstep) hrest
      · cases hrun

/-- A weaker condition on the steps allows more runs. -/
theorem Reach.mono {ok ok' : World N H τ → WorldLabel H τ → Prop} (hle : ∀ w l, ok w l → ok' w l)
    {s : ThreadState N H} {w : World N H τ} (h : Reach ok s w) : Reach ok' s w := by
  induction h with
  | start => exact .start
  | step _ l hok hstep ih => exact ih.step l (hle _ _ hok) hstep

/-- What the clients do in a run of the world is a run of theirs. -/
theorem Reach.pool {ok : World N H τ → WorldLabel H τ → Prop}
    {ok' : View (threadSig H) τ (ThreadState N H) (ThreadCall H) TableVal → τ → ThreadCall H → Prop}
    (hle : ∀ w l, ok w (.api l) → Sys.Allowed ok' w.pool.view l) {s : ThreadState N H}
    {w : World N H τ} (h : Reach ok s w) : (threadSys N H τ).Reach ok' s w.pool := by
  induction h with
  | start => exact .start
  | @step w w' _ l hok hstep ih =>
      cases l with
      | api l =>
          obtain ⟨-, pool, hpool, rfl⟩ := step_api hstep
          exact ih.step l (hle w l hok) hpool
      | start n =>
          obtain ⟨-, -, rfl⟩ := step_start hstep
          exact ih
      | work n =>
          obtain ⟨-, rfl⟩ := step_work hstep
          exact ih
      | finish n =>
          obtain ⟨-, rfl⟩ := step_finish hstep
          exact ih

end World

/-! ### The threads of the OS by number -/

theorem latest_lt {a : Addr} {n : Nat} : ∀ {os : List (OsThread H)},
    latest a os = some n → n < os.length := by
  intro os
  induction os with
  | nil =>
      intro h
      cases h
  | cons o os ih =>
      intro h
      unfold latest at h
      split at h
      · cases h
        simp
      · have hlt := ih h
        simp only [List.length_cons]
        omega

/-- Counted from the first thread or from the latest, it is the same thread. -/
theorem reverse_latest {a : Addr} {n : Nat} : ∀ {os : List (OsThread H)},
    latest a os = some n → os.reverse[n]? = os.find? fun o => o.record = a := by
  intro os
  induction os with
  | nil =>
      intro h
      cases h
  | cons o os ih =>
      intro h
      unfold latest at h
      by_cases ho : o.record = a
      · rw [if_pos ho] at h
        cases h
        simp [ho]
      · rw [if_neg ho] at h
        have hlt : n < os.reverse.length := by simpa using latest_lt h
        simp [ho, List.getElem?_append_left hlt, ih h]

theorem latest_isSome {a : Addr} : ∀ {os : List (OsThread H)} {o : OsThread H},
    (os.find? fun o => o.record = a) = some o → ∃ n, latest a os = some n := by
  intro os
  induction os with
  | nil =>
      intro o h
      cases h
  | cons o' os ih =>
      intro o h
      unfold latest
      by_cases ho : o'.record = a
      · exact ⟨os.length, if_pos ho⟩
      · rw [if_neg ho]
        exact ih (by simpa [ho] using h)

namespace ThreadState

/-- The latest thread of a record is the one started for it. -/
theorem osThread_threadOf {s : ThreadState N H} {a : Addr} {n : Nat}
    (h : s.threadOf a = some n) : s.osThread n = s.startedFor a := reverse_latest h

theorem threadOf_isSome {s : ThreadState N H} {a : Addr} {o : OsThread H}
    (h : s.startedFor a = some o) : ∃ n, s.threadOf a = some n := latest_isSome h

theorem osThread_lt {s : ThreadState N H} {n : Nat} {o : OsThread H} (h : s.osThread n = some o) :
    n < s.os.length := by
  have hlt := (List.getElem?_eq_some_iff.mp h).1
  simpa using hlt

theorem osThread_spawn_of_lt {s : ThreadState N H} {n : Nat} (hn : n < s.os.length)
    (o : OsThread H) : (s.spawn o).osThread n = s.osThread n := by
  unfold osThread
  show (o :: s.os).reverse[n]? = _
  rw [List.reverse_cons, List.getElem?_append_left (by simpa using hn)]

theorem threadOf_spawn_of_ne {s : ThreadState N H} {o : OsThread H} {a : Addr}
    (ha : o.record ≠ a) : (s.spawn o).threadOf a = s.threadOf a := if_neg ha

theorem osThread_of_spawn {s : ThreadState N H} {o₁ o : OsThread H} {n : Nat}
    (h : (s.spawn o₁).osThread n = some o) : s.osThread n = some o ∨ o = o₁ := by
  by_cases hn : n < s.os.length
  · rw [osThread_spawn_of_lt hn] at h
    exact Or.inl h
  · have hlt : n < s.os.length + 1 := osThread_lt h
    have hlen : n = s.os.length := by omega
    subst hlen
    have hnew : (s.spawn o₁).osThread s.os.length = some o₁ := by
      simp [osThread, spawn]
    exact Or.inr (Option.some.inj (h.symm.trans hnew))

variable [DecidableEq H]

theorem osThread_reap (s : ThreadState N H) (h : H) (status : OsStatus) (n : Nat) :
    (s.reap h status).osThread n = (s.osThread n).map fun o =>
      if o.handle = h ∧ o.status = .joinable then { o with status := status } else o := by
  unfold osThread reap
  rw [← List.map_reverse, List.getElem?_map]

theorem osThread_of_reap {s : ThreadState N H} {h : H} {status : OsStatus} {n : Nat}
    {o : OsThread H} (hn : (s.reap h status).osThread n = some o) :
    s.osThread n = some o ∨ o.status = status ∧
      ∃ o₁, s.osThread n = some o₁ ∧ o₁.handle = h ∧ o₁.status = .joinable := by
  rw [osThread_reap] at hn
  obtain ⟨o₁, ho₁, heq⟩ := Option.map_eq_some_iff.mp hn
  split at heq
  · rename_i hand
    subst heq
    exact Or.inr ⟨rfl, o₁, ho₁, hand⟩
  · subst heq
    exact Or.inl ho₁

theorem threadOf_reap (s : ThreadState N H) (h : H) (status : OsStatus) (a : Addr) :
    (s.reap h status).threadOf a = s.threadOf a := by
  have hmap : ∀ (f : OsThread H → OsThread H), (∀ o, (f o).record = o.record) →
      ∀ os, latest a (os.map f) = latest a os := by
    intro f hf os
    induction os with
    | nil => rfl
    | cons o os ih =>
        unfold latest
        rw [List.map_cons]
        simp only [hf, ih, List.length_map]
  refine hmap _ ?_ s.os
  intro o
  split <;> rfl

end ThreadState

variable [DecidableEq H]

theorem reapExec_ok {status : OsStatus} {x : ThreadChoice H} {handle : Option H} {ok : Bool}
    {s s' : ThreadState N H} (h : reapExec status x handle s = (ok, s')) :
    s' = s ∨ ∃ h, handle = some h ∧ x = .ok ∧ s' = s.reap h status := by
  unfold reapExec at h
  split at h
  · rename_i h'
    split at h
    · cases h
      exact Or.inr ⟨h', rfl, rfl, rfl⟩
    · cases h
      exact Or.inl rfl
  · cases h
    exact Or.inl rfl

/-- What a primitive does to the threads of the OS: `pthread_create` may make one, and
`pthread_join` and `pthread_detach` may reap some. -/
theorem exec_os {t : τ} {x : ThreadChoice H} {p : (threadSig H).Op} {s s' : ThreadState N H}
    {r : (threadSig H).Res p} (hexec : (threadMachine N H τ).exec x t p s = some (r, s')) :
    (s'.os = s.os ∧ ∀ a stackSize func arg, (⟨p, r⟩ : (threadSig H).Done) ≠
        ⟨.inl (.pthreadCreate a stackSize func arg), true⟩) ∨
      (∃ o : OsThread H, (⟨p, r⟩ : (threadSig H).Done) =
          ⟨.inl (.pthreadCreate o.record o.stackSize o.func o.arg), true⟩ ∧
        o.status = .joinable ∧ s' = s.spawn o) ∨
      (∃ h, p = .inl (.pthreadJoin (some h)) ∧ x = .ok ∧ s' = s.reap h .joined) ∨
      ∃ h, p = .inl (.pthreadDetach (some h)) ∧ s' = s.reap h .detached := by
  rcases p with p | p
  · cases p with
    | malloc =>
        rcases threadOpExec_malloc hexec with ⟨-, rfl⟩ | ⟨a, r, -, -, rfl⟩
        · exact Or.inl ⟨rfl, nofun⟩
        · exact Or.inl ⟨rfl, nofun⟩
    | readState p | readIsActive p | readHandle p =>
        rw [(readExec_cases hexec).1]
        exact Or.inl ⟨rfl, nofun⟩
    | pthreadAttrInit =>
        rw [threadOpExec_attr (Or.inl rfl) hexec]
        exact Or.inl ⟨rfl, nofun⟩
    | pthreadAttrSetstacksize n =>
        rw [threadOpExec_attr (Or.inr ⟨n, rfl⟩) hexec]
        exact Or.inl ⟨rfl, nofun⟩
    | free p | write p w | writeVar v p | pthreadAttrDestroy =>
        cases hexec
        exact Or.inl ⟨rfl, nofun⟩
    | pthreadCreate p stackSize func arg =>
        rcases threadOpExec_pthreadCreate hexec with ⟨rfl, rfl⟩ | ⟨h, -, rfl, rfl⟩
        · exact Or.inl ⟨rfl, nofun⟩
        · exact Or.inr (Or.inl ⟨_, rfl, rfl, rfl⟩)
    | pthreadJoin handle =>
        rcases reapExec_ok (Option.some.inj hexec) with rfl | ⟨h, rfl, rfl, rfl⟩
        · exact Or.inl ⟨rfl, nofun⟩
        · exact Or.inr (Or.inr (Or.inl ⟨h, rfl, rfl, rfl⟩))
    | pthreadDetach handle =>
        rcases reapExec_ok (Option.some.inj hexec) with rfl | ⟨h, rfl, -, rfl⟩
        · exact Or.inl ⟨rfl, nofun⟩
        · exact Or.inr (Or.inr (Or.inr ⟨h, rfl, rfl⟩))
  · cases p <;> cases hexec <;> exact Or.inl ⟨rfl, nofun⟩

end TinyTools
