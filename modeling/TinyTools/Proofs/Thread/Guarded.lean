/-
The thread table and its mutex.

None of the table functions looks at what `tt_mutex_lock` returns, and on Linux it
returns an error, having locked nothing, as long as `initialized` of
`g_thread_table_mutex` is not set.  So the table is protected in a run exactly as long
as no table function comes to the mutex before the one `tt_thread_init` has set the
flag; after that the flag stays set and the mutex keeps the object that was made for
it.

The invariant speaks of two times.  Before the flag is set, the one thread in
`tt_thread_init` is making the object and nobody else gets to it.  Afterwards the holder
of the object is the one thread that may be among the slots, and as nobody else can
change them, that thread's ghost has the whole table as it is.
-/
import TinyTools.Lib.Outline
import TinyTools.Proofs.Thread.Records

namespace TinyTools

open Interleave

namespace Guarded

open ThreadBody

variable {N : Nat} {H τ : Type}

/-- The threads' part of the state and the mutex. -/
abbrev Shared (N : Nat) (H τ : Type) := ThreadState N H × LinuxMutexes Unit τ

abbrev GuardEvent (N : Nat) (H τ : Type) := Event (threadLinuxSig N H) τ (ThreadCall H) TableVal

abbrev GuardView (N : Nat) (H τ : Type) :=
  View (threadLinuxSig N H) τ (Shared N H τ) (ThreadCall H) TableVal

/-! ### What is to be shown -/

/-- `tt_thread_init` has been called. -/
def started (tr : List (GuardEvent N H τ)) : Bool :=
  tr.any fun
    | .call _ _ .init => true
    | _ => false

/-- The clients' promise: they call `tt_thread_init` at most once. -/
def OneInit (v : GuardView N H τ) (_ : τ) : ThreadCall H → Prop
  | .init => started v.trace = false
  | .create _ _ _ _ | .join _ | .destroy _ | .findByHandle _ => True

instance (v : GuardView N H τ) (t : τ) (c : ThreadCall H) : Decidable (OneInit v t c) :=
  match c with
  | .init => inferInstanceAs (Decidable (started v.trace = false))
  | .create _ _ _ _ | .join _ | .destroy _ | .findByHandle _ =>
      inferInstanceAs (Decidable True)

/-- A mutex function has found `initialized` of `g_thread_table_mutex` not set. -/
def Refused (tr : List (GuardEvent N H τ)) : Prop :=
  ∃ id t, .prim id t (.inr (.inr (.readInitialized ()))) false ∈ tr

/-- `t` holds `g_thread_table_mutex`. -/
def Holds (s : Shared N H τ) (t : τ) : Prop :=
  (s.2.mutex ()).initialized = true ∧
    ∃ a, (s.2.mutex ()).lock = some a ∧ s.2.object a = some (.ready (some t))

/-- The last thing `t` did in the call it is in was to write `thread` into slot `i`. -/
def JustWrote (v : GuardView N H τ) (t : τ) (i : Fin N) (thread : Addr) : Prop :=
  ∃ id c, v.calls t = some (id, c) ∧
    (prims v.trace id).getLast? = some ⟨.inr (.inl (.writeThread i (some thread))), ()⟩

/-- What must hold when `t` comes to an access to the table: it holds the mutex, the slot it
registers a record in is free, and is as it left it when it puts it in use. -/
def Protected (v : GuardView N H τ) (t : τ) : (threadLinuxSig N H).Op → Prop
  | .inr (.inl p) => Holds v.shared t ∧
      match p with
      | .writeThread i (some _) => (v.shared.1.table i).inUse = false
      | .writeInUse i true => ∃ a, JustWrote v t i a ∧ v.shared.1.table i = ⟨some a, false⟩
      | _ => True
  | _ => True

/-! ### The invariant -/

/-- Where a thread stands with the mutex. -/
inductive Ghost (N : Nat) : Type
  | out
  /-- In `tt_mutex_init`: nothing made yet; the object allocated; initialised; pointed to. -/
  | fresh
  | made (a : Addr)
  | ready (a : Addr)
  | pointed (a : Addr)
  /-- In `tt_mutex_lock`: the flag was set; the object is known. -/
  | allowed
  | aimed (a : Addr)
  /-- It holds the mutex, and the table is `tab`; it is about to put a slot in use. -/
  | inside (tab : Table N)
  | wrote (tab : Table N) (i : Fin N) (thread : Addr)
  /-- In `tt_mutex_unlock`, still holding it: the flag was set; the object is known. -/
  | leaving
  | leavingAt (a : Addr)

namespace Ghost

/-- In the initialisation of the mutex. -/
def building : Ghost N → Bool
  | fresh | made _ | ready _ | pointed _ => true
  | out | allowed | aimed _ | inside _ | wrote _ _ _ | leaving | leavingAt _ => false

/-- Holding the mutex. -/
def holding : Ghost N → Bool
  | inside _ | wrote _ _ _ | leaving | leavingAt _ => true
  | out | fresh | made _ | ready _ | pointed _ | allowed | aimed _ => false

end Ghost

/-- What a ghost says of the state. -/
def Knows (s : Shared N H τ) : Ghost N → Prop
  | .out => True
  | .fresh => (s.2.mutex ()).initialized = false
  | .made a => (s.2.mutex ()).initialized = false ∧ s.2.object a = some .raw
  | .ready a => (s.2.mutex ()).initialized = false ∧ s.2.object a = some (.ready none)
  | .pointed a => (s.2.mutex ()).initialized = false ∧ s.2.object a = some (.ready none) ∧
      (s.2.mutex ()).lock = some a
  | .allowed | .leaving => (s.2.mutex ()).initialized = true
  | .aimed a | .leavingAt a => (s.2.mutex ()).initialized = true ∧ (s.2.mutex ()).lock = some a
  | .inside tab => (s.2.mutex ()).initialized = true ∧ s.1.table = tab
  | .wrote tab i thread => (s.2.mutex ()).initialized = true ∧ s.1.table = tab ∧
      tab i = ⟨some thread, false⟩

/-- What a ghost says of what its thread did. -/
def Noted (v : GuardView N H τ) (t : τ) : Ghost N → Prop
  | .wrote _ i thread => JustWrote v t i thread
  | _ => True

structure Inv (v : GuardView N H τ) (G : τ → Ghost N) : Prop where
  knows : ∀ t, Knows v.shared (G t)
  noted : ∀ t, Noted v t (G t)
  /-- Once the flag is set, the mutex has an object, whose holder is the thread inside. -/
  live : (v.shared.2.mutex ()).initialized = true → ∃ a h, (v.shared.2.mutex ()).lock = some a ∧
    v.shared.2.object a = some (.ready h) ∧ ∀ t, h = some t ↔ (G t).holding = true
  builder : ∀ t, (G t).building = true → ∃ id, v.calls t = some (id, .init)
  called : (v.shared.2.mutex ()).initialized = true → started v.trace = true
  once : ∀ id id' t u, .call id t .init ∈ v.trace → .call id' u .init ∈ v.trace → id = id'

def outline (N : Nat) (H τ : Type) :
    Outline (threadLinuxSig N H) τ (Shared N H τ) (ThreadCall H) TableVal (Ghost N) where
  idle g := g = .out
  inv := Inv
  pre := Protected
  stop := Refused
  stop_snoc := by
    rintro tr e ⟨id, t, h⟩
    exact ⟨id, t, List.mem_append_left _ h⟩

/-- What a ghost says survives a change of what it does not speak of. -/
theorem Knows.congr {s s' : Shared N H τ} {g : Ghost N} (h : Knows s g)
    (hmutex : s'.2.mutex = s.2.mutex) (htable : g.holding = true → s'.1.table = s.1.table)
    (hobject : g.building = true → s'.2.object = s.2.object) : Knows s' g := by
  cases g with
  | out => trivial
  | fresh | allowed | leaving | aimed a | leavingAt a =>
      simp only [Knows, hmutex] at h ⊢
      exact h
  | made a | ready a | pointed a =>
      simp only [Knows, hmutex, hobject rfl] at h ⊢
      exact h
  | inside tab | wrote tab i thread =>
      simp only [Knows, hmutex, htable rfl] at h ⊢
      exact h

theorem Knows.flag_of_building {s : Shared N H τ} {g : Ghost N} (h : Knows s g)
    (hg : g.building = true) : (s.2.mutex ()).initialized = false := by
  cases g with
  | fresh => exact h
  | made a | ready a | pointed a => exact h.1
  | _ => cases hg

theorem Knows.flag_of_holding {s : Shared N H τ} {g : Ghost N} (h : Knows s g)
    (hg : g.holding = true) : (s.2.mutex ()).initialized = true := by
  cases g with
  | leaving => exact h
  | inside tab | wrote tab i thread | leavingAt a => exact h.1
  | _ => cases hg

namespace Inv

variable {v : GuardView N H τ} {G : τ → Ghost N}

/-- The thread inside holds the mutex. -/
theorem holds (h : Inv v G) {t : τ} (ht : (G t).holding = true) : Holds v.shared t := by
  have hflag := (h.knows t).flag_of_holding ht
  obtain ⟨a, holder, hlock, hobject, hiff⟩ := h.live hflag
  rw [(hiff t).mpr ht] at hobject
  exact ⟨hflag, a, hlock, hobject⟩

/-- The object the mutex points to, once the flag is set. -/
theorem object (h : Inv v G) {a : Addr} (hflag : (v.shared.2.mutex ()).initialized = true)
    (hlock : (v.shared.2.mutex ()).lock = some a) : ∃ holder,
      v.shared.2.object a = some (.ready holder) ∧ ∀ t, holder = some t ↔ (G t).holding = true := by
  obtain ⟨a', holder, hlock', hobject, hiff⟩ := h.live hflag
  rw [hlock] at hlock'
  cases hlock'
  exact ⟨holder, hobject, hiff⟩

theorem holding_unique (h : Inv v G) {t u : τ} (ht : (G t).holding = true)
    (hu : (G u).holding = true) : t = u := by
  obtain ⟨a, holder, -, -, hiff⟩ := h.live ((h.knows t).flag_of_holding ht)
  exact Option.some.inj (((hiff t).mpr ht).symm.trans ((hiff u).mpr hu))

/-- At most one thread is in the initialisation. -/
theorem building_unique (h : Inv v G) (hb : Books v) {t u : τ} (ht : (G t).building = true)
    (hu : (G u).building = true) : t = u := by
  obtain ⟨id, hid⟩ := h.builder t ht
  obtain ⟨id', hid'⟩ := h.builder u hu
  have heq : id = id' := h.once id id' t u (hb.called t id _ hid) (hb.called u id' _ hid')
  subst heq
  exact hb.apart t u id _ _ hid hid'

/-- A step of `t`. -/
theorem prim [DecidableEq τ] (h : Inv v G) (hb : Books v) {id : Nat} {t : τ} {c : ThreadCall H}
    {p : (threadLinuxSig N H).Op} {r : (threadLinuxSig N H).Res p} {s : Shared N H τ} {g : Ghost N}
    (hc : v.calls t = some (id, c)) (hothers : ∀ u, u ≠ t → Knows s (G u)) (hknows : Knows s g)
    (hnoted : Noted (v.prim id t p r s) t g)
    (hlive : (s.2.mutex ()).initialized = true → ∃ a h, (s.2.mutex ()).lock = some a ∧
      s.2.object a = some (.ready h) ∧ ∀ u, h = some u ↔ (Function.update G t g u).holding = true)
    (hbuilding : g.building = true → c = .init)
    (hcalled : (s.2.mutex ()).initialized = true →
      (v.shared.2.mutex ()).initialized = true ∨ c = .init) :
    Inv (v.prim id t p r s) (Function.update G t g) := by
  refine ⟨?_, ?_, hlive, ?_, ?_, ?_⟩
  · exact (Function.forall_update_iff _ _).mpr ⟨hknows, hothers⟩
  · refine (Function.forall_update_iff _ _).mpr ⟨hnoted, fun u hu => ?_⟩
    have hold := h.noted u
    cases hg : G u with
    | wrote tab i thread =>
        rw [hg] at hold
        obtain ⟨id', c', hc', hlast⟩ := hold
        have hne : id ≠ id' := by
          intro heq
          subst heq
          exact hu (hb.apart u t id c' c hc' hc)
        refine ⟨id', c', hc', ?_⟩
        rw [View.prim_trace, prims_snoc_of_ne _ hne]
        exact hlast
    | _ => trivial
  · intro u hu
    by_cases hut : u = t
    · subst hut
      rw [Function.update_self] at hu
      exact ⟨id, by rw [View.prim_calls, hc, hbuilding hu]⟩
    · rw [Function.update_of_ne hut] at hu
      exact h.builder u hu
  · intro hflag
    have hstarted : started v.trace = true := by
      rcases hcalled hflag with hold | hinit
      · exact h.called hold
      · have hcall := hb.called t id c hc
        rw [hinit] at hcall
        exact List.any_eq_true.mpr ⟨_, hcall, rfl⟩
    simp only [started, View.prim_trace, List.any_append, Bool.or_eq_true]
    exact Or.inl hstarted
  · intro id₁ id₂ t₁ t₂ h₁ h₂
    exact h.once id₁ id₂ t₁ t₂ (by simpa using h₁) (by simpa using h₂)

/-- A step of `t` that leaves the mutex alone. -/
theorem stay [DecidableEq τ] (h : Inv v G) (hb : Books v) {id : Nat} {t : τ} {c : ThreadCall H}
    {p : (threadLinuxSig N H).Op} {r : (threadLinuxSig N H).Res p} {s : Shared N H τ} {g : Ghost N}
    (hc : v.calls t = some (id, c)) (hmutexes : s.2 = v.shared.2)
    (htable : (G t).holding = true ∨ s.1.table = v.shared.1.table)
    (hholding : g.holding = (G t).holding) (hbuilding : g.building = (G t).building)
    (hknows : Knows s g) (hnoted : Noted (v.prim id t p r s) t g) :
    Inv (v.prim id t p r s) (Function.update G t g) := by
  refine h.prim hb hc ?_ hknows hnoted ?_ ?_ ?_
  · intro u hu
    refine (h.knows u).congr (by rw [hmutexes]) ?_ (by rw [hmutexes]; exact fun _ => rfl)
    intro hheld
    rcases htable with hmine | hsame
    · exact absurd (h.holding_unique hheld hmine) hu
    · exact hsame
  · rw [hmutexes]
    intro hflag
    obtain ⟨a, holder, hlock, hobject, hiff⟩ := h.live hflag
    refine ⟨a, holder, hlock, hobject, fun u => (hiff u).trans ?_⟩
    by_cases hu : u = t
    · subst hu
      rw [Function.update_self, hholding]
    · rw [Function.update_of_ne hu]
  · intro hg
    rw [hbuilding] at hg
    obtain ⟨id', hid'⟩ := h.builder t hg
    rw [hc] at hid'
    cases hid'
    rfl
  · rw [hmutexes]
    exact Or.inl

/-- A step of `t` on the holder of the object the mutex has. -/
theorem setHolder [DecidableEq τ] (h : Inv v G) (hb : Books v) {id : Nat} {t : τ}
    {c : ThreadCall H} {p : (threadLinuxSig N H).Op} {r : (threadLinuxSig N H).Res p} {a : Addr}
    {n : Option τ} {g : Ghost N} (hc : v.calls t = some (id, c))
    (hflag : (v.shared.2.mutex ()).initialized = true)
    (hlock : (v.shared.2.mutex ()).lock = some a)
    (hholder : ∀ u, n = some u ↔ (Function.update G t g u).holding = true)
    (hbuilding : g.building = false)
    (hknows : Knows (v.shared.1, v.shared.2.setObject a (some (.ready n))) g)
    (hnoted : Noted (v.prim id t p r (v.shared.1, v.shared.2.setObject a (some (.ready n)))) t g) :
    Inv (v.prim id t p r (v.shared.1, v.shared.2.setObject a (some (.ready n))))
      (Function.update G t g) := by
  refine h.prim hb hc ?_ hknows hnoted ?_ ?_ (fun _ => Or.inl hflag)
  · intro u _
    refine (h.knows u).congr rfl (fun _ => rfl) ?_
    intro hbuilder
    have hraw := (h.knows u).flag_of_building hbuilder
    rw [hflag] at hraw
    cases hraw
  · intro _
    exact ⟨a, n, hlock, by simp, hholder⟩
  · intro hg
    rw [hbuilding] at hg
    cases hg

/-- A step of `t` in the initialisation of the mutex. -/
theorem build [DecidableEq τ] (h : Inv v G) (hb : Books v) {id : Nat} {t : τ} {c : ThreadCall H}
    {p : (threadLinuxSig N H).Op} {r : (threadLinuxSig N H).Res p} {s : Shared N H τ} {g : Ghost N}
    (hc : v.calls t = some (id, c)) (hbuilding : (G t).building = true)
    (hknows : Knows s g) (hnoted : Noted (v.prim id t p r s) t g) (hholding : g.holding = false)
    (hlive : (s.2.mutex ()).initialized = true → ∃ a, (s.2.mutex ()).lock = some a ∧
      s.2.object a = some (.ready none)) :
    Inv (v.prim id t p r s) (Function.update G t g) := by
  have hraw : (v.shared.2.mutex ()).initialized = false := (h.knows t).flag_of_building hbuilding
  have hinit : c = .init := by
    obtain ⟨id', hid'⟩ := h.builder t hbuilding
    rw [hc] at hid'
    cases hid'
    rfl
  -- nobody else has come to the mutex, which has no object yet
  have hout : ∀ u, u ≠ t → G u = .out := by
    intro u hu
    have hk := h.knows u
    have hnot : (G u).building = true → False := fun hg => hu (h.building_unique hb hg hbuilding)
    cases hg : G u with
    | out => rfl
    | fresh | made a | ready a | pointed a =>
        rw [hg] at hnot
        exact (hnot rfl).elim
    | allowed | leaving =>
        rw [hg] at hk
        rw [show (v.shared.2.mutex ()).initialized = true from hk] at hraw
        cases hraw
    | aimed a | leavingAt a | inside tab | wrote tab i thread =>
        rw [hg] at hk
        rw [show (v.shared.2.mutex ()).initialized = true from hk.1] at hraw
        cases hraw
  refine h.prim hb hc ?_ hknows hnoted ?_ (fun _ => hinit) (fun _ => Or.inr hinit)
  · intro u hu
    rw [hout u hu]
    trivial
  · intro hflag
    obtain ⟨a, hlock, hobject⟩ := hlive hflag
    refine ⟨a, none, hlock, hobject, ?_⟩
    intro u
    refine ⟨nofun, ?_⟩
    by_cases hu : u = t
    · subst hu
      rw [Function.update_self, hholding]
      exact Bool.noConfusion
    · rw [Function.update_of_ne hu, hout u hu]
      exact Bool.noConfusion

end Inv

/-! ### The steps -/

section Steps

variable [DecidableEq H] [DecidableEq τ] {t : τ} {id : Nat} {c : ThreadCall H} {β : Type}
  {Q : β → Ghost N → Prop}

/-- The program `m`, in call `c`. -/
abbrev Safe (t : τ) (id : Nat) (c : ThreadCall H) (m : Prog (threadLinuxSig N H) β)
    (Q : β → Ghost N → Prop) (g : Ghost N) : Prop :=
  (outline N H τ).Wp (threadSteadySys N H τ).toMachine t id c m Q g

variable {x : ThreadChoice H × LinuxChoice} {s s' : Shared N H τ}

omit [DecidableEq τ] in
theorem exec_thread {p : ThreadOp H} {r : p.Res}
    (h : (threadSteadySys N H τ).exec x t (.inl p) s = some (r, s')) :
    threadOpExec x.1 p s.1 = some (r, s'.1) ∧ s'.2 = s.2 := by
  obtain ⟨⟨r', m⟩, hexec, heq⟩ := Option.map_eq_some_iff.mp h
  cases heq
  exact ⟨hexec, rfl⟩

omit [DecidableEq τ] in
theorem exec_table {p : TableOp N} {r : TableOp.Res (Option H) p}
    (h : (threadSteadySys N H τ).exec x t (.inr (.inl p)) s = some (r, s')) :
    threadTableExec x.1 p s.1 = some (r, s'.1) ∧ s'.2 = s.2 := by
  obtain ⟨⟨r', m⟩, hexec, heq⟩ := Option.map_eq_some_iff.mp h
  cases heq
  exact ⟨hexec, rfl⟩

omit [DecidableEq τ] in
theorem exec_mutex {p : LinuxMutexOp Unit} {r : p.Res}
    (h : (threadSteadySys N H τ).exec x t (.inr (.inr p)) s = some (r, s')) :
    ∃ m, linuxMutexExec (lockSteady x (.inr (.inr p) : (threadLinuxSig N H).Op)).2 t p s.2 =
      some (r, m) ∧ s' = (s.1, m) := by
  obtain ⟨⟨r', m⟩, hexec, heq⟩ := Option.map_eq_some_iff.mp h
  cases heq
  exact ⟨m, hexec, rfl⟩

/-- A step that leaves the mutex alone. -/
theorem safe_stay {p : (threadLinuxSig N H).Op} {k : (threadLinuxSig N H).Res p → Prog _ β}
    {g : Ghost N} (hpre : ∀ v : GuardView N H τ, (g.holding = true → Holds v.shared t) →
      Knows v.shared g → Noted v t g → Protected v t p)
    (hk : ∀ x (s : Shared N H τ) r s', Knows s g →
      (threadSteadySys N H τ).exec x t p s = some (r, s') → s'.2 = s.2 ∧
        (g.holding = true ∨ s'.1.table = s.1.table) ∧ ∃ g', g'.holding = g.holding ∧
          g'.building = g.building ∧ Knows s' g' ∧
          (∀ v : GuardView N H τ, v.calls t = some (id, c) → Noted (v.prim id t p r s') t g') ∧
          Safe t id c (k r) Q g') :
    Safe t id c (.step p k) Q g := by
  refine Outline.Wp.step (fun _ _ => rfl) ?_
  intro v G hb hinv hgt hcall
  have hknows : Knows v.shared g := Outline.at_ghost hinv.knows hgt
  have hnoted : Noted v t g := Outline.at_ghost hinv.noted hgt
  refine ⟨hpre v ?_ hknows hnoted, ?_⟩
  · intro hheld
    rw [← hgt] at hheld
    exact hinv.holds hheld
  · intro x r s hexec _
    obtain ⟨hmutexes, htable, g', hholding, hbuilding, hknows', hnoted', hrest⟩ :=
      hk x v.shared r s hknows hexec
    rw [← hgt] at htable hholding hbuilding
    exact ⟨g', hinv.stay hb hcall hmutexes htable hholding hbuilding hknows' (hnoted' v hcall),
      hrest⟩

omit [DecidableEq τ] in
/-- What is done to records and pthreads leaves the table alone. -/
theorem threadOpExec_table {x : ThreadChoice H} {p : ThreadOp H} {r : p.Res}
    {s s' : ThreadState N H} (hexec : threadOpExec x p s = some (r, s')) :
    s'.table = s.table := by
  cases p with
  | malloc =>
      rcases threadOpExec_malloc hexec with ⟨-, rfl⟩ | ⟨a, r', -, -, rfl⟩ <;> rfl
  | pthreadAttrInit => rw [threadOpExec_attr (Or.inl rfl) hexec]
  | pthreadAttrSetstacksize n => rw [threadOpExec_attr (Or.inr ⟨n, rfl⟩) hexec]
  | pthreadCreate a n func arg =>
      rcases threadOpExec_pthreadCreate hexec with ⟨-, rfl⟩ | ⟨h, -, -, rfl⟩ <;> rfl
  | readState a | readIsActive a | readHandle a => rw [(readExec_cases hexec).1]
  | pthreadJoin handle | pthreadDetach handle =>
      rcases reapExec_cases (Option.some.inj hexec) with ⟨-, rfl⟩ | ⟨h, -, -, -, rfl⟩ <;> rfl
  | free a | write a w | writeVar w a | pthreadAttrDestroy =>
      cases hexec
      rfl

/-- An operation on records or pthreads. -/
theorem safe_thread {p : ThreadOp H} {k : p.Res → Prog (threadLinuxSig N H) β}
    (hk : ∀ r, Safe t id c (k r) Q .out) : Safe t id c (.step (.inl p) k) Q .out := by
  refine safe_stay (fun _ _ _ _ => trivial) ?_
  intro x s r s' _ hexec
  obtain ⟨hop, hmutexes⟩ := exec_thread hexec
  exact ⟨hmutexes, Or.inr (threadOpExec_table hop), .out, rfl, rfl, trivial, fun _ _ => trivial,
    hk r⟩

/-! ### Slots -/

variable {tab : Table N} {i : Fin N}

/-- A read of the table, or of a record in it. -/
theorem safe_read {p : TableOp N} {k : TableOp.Res (Option H) p → Prog (threadLinuxSig N H) β}
    (hp : ∀ j, (∀ b, p ≠ .writeInUse j b) ∧ ∀ a, p ≠ .writeThread j a)
    (hk : ∀ x (s : ThreadState N H) r s', s.table = tab → threadTableExec x p s = some (r, s') →
      s' = s ∧ Safe t id c (k r) Q (.inside tab)) :
    Safe t id c (.step (.inr (.inl p)) k) Q (.inside tab) := by
  refine safe_stay ?_ ?_
  · intro v hholds _ _
    refine ⟨hholds rfl, ?_⟩
    cases p with
    | writeInUse j b => exact absurd rfl ((hp j).1 b)
    | writeThread j a => exact absurd rfl ((hp j).2 a)
    | _ => trivial
  · intro x s r s' hknows hexec
    obtain ⟨hop, hmutexes⟩ := exec_table hexec
    obtain ⟨heq, hrest⟩ := hk x.1 s.1 r s'.1 hknows.2 hop
    refine ⟨hmutexes, Or.inl rfl, .inside tab, rfl, rfl, ?_, fun _ _ => trivial, hrest⟩
    show (s'.2.mutex ()).initialized = true ∧ s'.1.table = tab
    rw [hmutexes, heq]
    exact hknows

theorem safe_readInUse {k : Bool → Prog (threadLinuxSig N H) β}
    (hk : Safe t id c (k (tab i).inUse) Q (.inside tab)) :
    Safe t id c (.step (.inr (.inl (.readInUse i))) k) Q (.inside tab) := by
  refine safe_read (fun _ => ⟨nofun, nofun⟩) ?_
  intro x s r s' htab hexec
  cases hexec
  rw [htab]
  exact ⟨rfl, hk⟩

theorem safe_readThread {k : Option Addr → Prog (threadLinuxSig N H) β}
    (hk : ∀ a, Safe t id c (k a) Q (.inside tab)) :
    Safe t id c (.step (.inr (.inl (.readThread i))) k) Q (.inside tab) := by
  refine safe_read (fun _ => ⟨nofun, nofun⟩) ?_
  intro x s r s' _ hexec
  cases hexec
  exact ⟨rfl, hk _⟩

theorem safe_readHandle {a : Option Addr} {k : Option H → Prog (threadLinuxSig N H) β}
    (hk : ∀ h, Safe t id c (k h) Q (.inside tab)) :
    Safe t id c (.step (.inr (.inl (.readHandle a))) k) Q (.inside tab) := by
  refine safe_read (fun _ => ⟨nofun, nofun⟩) ?_
  intro x s r s' _ hexec
  cases a with
  | none => cases hexec
  | some a =>
      obtain ⟨rfl, -⟩ := readExec_cases hexec
      exact ⟨rfl, hk r⟩

/-- A write to the table by the thread inside, which it remains. -/
theorem safe_write {p : TableOp N} {k : TableOp.Res (Option H) p → Prog (threadLinuxSig N H) β}
    {g : Ghost N} (hheld : g.holding = true) (hbuilding : g.building = false)
    (hpre : ∀ v : GuardView N H τ, Holds v.shared t → Knows v.shared g → Noted v t g →
      Protected v t (.inr (.inl p) : (threadLinuxSig N H).Op))
    (hk : ∀ r tab', Safe t id c (k r) Q (.inside tab')) :
    Safe t id c (.step (.inr (.inl p)) k) Q g := by
  refine safe_stay (fun v hholds => hpre v (hholds hheld)) ?_
  intro x s r s' hknows hexec
  obtain ⟨-, hmutexes⟩ := exec_table hexec
  refine ⟨hmutexes, Or.inl hheld, .inside s'.1.table, hheld.symm, hbuilding.symm, ⟨?_, rfl⟩,
    fun _ _ => trivial, hk r s'.1.table⟩
  rw [hmutexes]
  exact hknows.flag_of_holding hheld

/-- A slot is emptied. -/
theorem safe_clear {k : Unit → Prog (threadLinuxSig N H) β}
    (hk : ∀ tab', Safe t id c (k ()) Q (.inside tab')) :
    Safe t id c (.step (.inr (.inl (.writeThread i none))) fun _ =>
      .step (.inr (.inl (.writeInUse i false))) k) Q (.inside tab) := by
  refine safe_write rfl rfl (fun v hholds _ _ => ⟨hholds, trivial⟩) fun _ tab' => ?_
  exact safe_write rfl rfl (fun v hholds _ _ => ⟨hholds, trivial⟩) fun _ => hk

/-- A free slot is given a record and put in use. -/
theorem safe_fill {a : Addr} {k : Unit → Prog (threadLinuxSig N H) β}
    (hfree : (tab i).inUse = false) (hk : ∀ tab', Safe t id c (k ()) Q (.inside tab')) :
    Safe t id c (.step (.inr (.inl (.writeThread i (some a)))) fun _ =>
      .step (.inr (.inl (.writeInUse i true))) k) Q (.inside tab) := by
  refine safe_stay ?_ ?_
  · intro v hholds hknows _
    refine ⟨hholds rfl, ?_⟩
    show (v.shared.1.table i).inUse = false
    rw [hknows.2]
    exact hfree
  intro x s r s' hknows hexec
  obtain ⟨hop, hmutexes⟩ := exec_table hexec
  refine ⟨hmutexes, Or.inl rfl, .wrote s'.1.table i a, rfl, rfl, ?_, ?_, ?_⟩
  · show (s'.2.mutex ()).initialized = true ∧ _ ∧ s'.1.table i = _
    rw [hmutexes]
    refine ⟨hknows.1, rfl, ?_⟩
    simp only [threadTableExec, Option.some.injEq, Prod.mk.injEq, true_and] at hop
    rw [← hop]
    simp [hknows.2, hfree]
  · intro v hcall
    refine ⟨id, c, hcall, ?_⟩
    rw [View.prim_trace, prims_snoc_self, List.getLast?_concat]
  · refine safe_write rfl rfl ?_ fun _ => hk
    intro v hholds hknows' hnoted
    refine ⟨hholds, a, hnoted, ?_⟩
    rw [hknows'.2.1]
    exact hknows'.2.2

/-! ### The mutex -/

/-- `initialized` is looked at: it is found set, or the run is not followed further. -/
theorem safe_readInitialized (g' : Ghost N) {k : Bool → Prog (threadLinuxSig N H) β} {g : Ghost N}
    (hholding : g'.holding = g.holding) (hbuilding : g'.building = g.building)
    (hknows : ∀ s : Shared N H τ, Knows s g → (s.2.mutex ()).initialized = true → Knows s g')
    (hnoted : ∀ v : GuardView N H τ, Noted v t g') (hk : Safe t id c (k true) Q g') :
    Safe t id c (.step (.inr (.inr (.readInitialized ()))) k) Q g := by
  refine Outline.Wp.step (fun _ _ => rfl) ?_
  intro v G hb hinv hgt hcall
  subst hgt
  refine ⟨trivial, ?_⟩
  intro x r s hexec hstop
  cases hexec
  cases hflag : (v.shared.2.mutex ()).initialized with
  | false => exact absurd ⟨id, t, by simp [hflag]⟩ hstop
  | true =>
      exact ⟨g', hinv.stay hb hcall rfl (Or.inr rfl) hholding hbuilding
        (hknows _ (hinv.knows t) hflag) (hnoted _), hk⟩

/-- Where the object of the mutex is. -/
theorem safe_readLock (g' : Addr → Ghost N) {k : Option Addr → Prog (threadLinuxSig N H) β}
    {g : Ghost N} (hholding : ∀ a, (g' a).holding = g.holding)
    (hbuilding : ∀ a, (g' a).building = g.building)
    (hflag : ∀ s : Shared N H τ, Knows s g → (s.2.mutex ()).initialized = true)
    (hknows : ∀ (s : Shared N H τ) a, Knows s g → (s.2.mutex ()).lock = some a → Knows s (g' a))
    (hnoted : ∀ (v : GuardView N H τ) a, Noted v t (g' a))
    (hk : ∀ a, Safe t id c (k (some a)) Q (g' a)) :
    Safe t id c (.step (.inr (.inr (.readLock ()))) k) Q g := by
  refine Outline.Wp.step (fun _ _ => rfl) ?_
  intro v G hb hinv hgt hcall
  subst hgt
  refine ⟨trivial, ?_⟩
  intro x r s hexec _
  cases hexec
  obtain ⟨a, -, hlock, -⟩ := hinv.live (hflag _ (hinv.knows t))
  refine ⟨g' a, hinv.stay hb hcall rfl (Or.inr rfl) (hholding a) (hbuilding a)
    (hknows _ a (hinv.knows t) hlock) (hnoted _ a), ?_⟩
  show Safe t id c (k (v.shared.2.mutex ()).lock) Q (g' a)
  rw [hlock]
  exact hk a

/-- `tt_mutex_lock`: whoever comes back holds the mutex. -/
theorem safe_lock {Q : TtError → Ghost N → Prop} (hQ : ∀ tab, Q .success (.inside tab)) :
    Safe t id c ((linuxMutex (.lock (some ()))).inr.inr : Prog (threadLinuxSig N H) TtError) Q
      .out := by
  refine safe_readInitialized .allowed rfl rfl (fun _ _ hflag => hflag)
    (fun _ => trivial) ?_
  refine safe_readLock .aimed (fun _ => rfl) (fun _ => rfl) (fun _ hk => hk)
    (fun _ _ hk hlock => ⟨hk, hlock⟩) (fun _ _ => trivial) fun a => ?_
  refine Outline.Wp.step (fun _ _ => rfl) ?_
  intro v G hb hinv hgt hcall
  refine ⟨trivial, ?_⟩
  intro x r s hexec _
  obtain ⟨m, hm, rfl⟩ := exec_mutex hexec
  have hk : (v.shared.2.mutex ()).initialized = true ∧ (v.shared.2.mutex ()).lock = some a :=
    Outline.at_ghost hinv.knows hgt
  obtain ⟨holder, hobject, hiff⟩ := hinv.object hk.1 hk.2
  rcases linuxMutexExec_lock hobject hm with ⟨rfl, rfl, rfl⟩ | ⟨rfl, -⟩
  · refine ⟨.inside v.shared.1.table, ?_, hQ _⟩
    refine hinv.setHolder hb hcall hk.1 hk.2 ?_ rfl ⟨hk.1, rfl⟩ trivial
    intro u
    by_cases hu : u = t
    · subst hu
      simp [Ghost.holding]
    · rw [Function.update_of_ne hu, ← hiff u]
      simp [Ne.symm hu]
  · -- locking an initialised mutex does not fail
    cases holder <;> simp [lockSteady, linuxMutexExec, hobject] at hm

/-- `tt_mutex_unlock`, by the thread that holds the mutex. -/
theorem safe_unlock {Q : TtError → Ghost N → Prop} (hQ : Q .success .out) :
    Safe t id c ((linuxMutex (.unlock (some ()))).inr.inr : Prog (threadLinuxSig N H) TtError) Q
      (.inside tab) := by
  refine safe_readInitialized .leaving rfl rfl (fun _ _ hflag => hflag)
    (fun _ => trivial) ?_
  refine safe_readLock .leavingAt (fun _ => rfl) (fun _ => rfl) (fun _ hk => hk)
    (fun _ _ hk hlock => ⟨hk, hlock⟩) (fun _ _ => trivial) fun a => ?_
  refine Outline.Wp.step (fun _ _ => rfl) ?_
  intro v G hb hinv hgt hcall
  refine ⟨trivial, ?_⟩
  intro x r s hexec _
  obtain ⟨m, hm, rfl⟩ := exec_mutex hexec
  have hk : (v.shared.2.mutex ()).initialized = true ∧ (v.shared.2.mutex ()).lock = some a :=
    Outline.at_ghost hinv.knows hgt
  have hmine : (G t).holding = true := by
    rw [hgt]
    rfl
  obtain ⟨holder, hobject, hiff⟩ := hinv.object hk.1 hk.2
  rcases linuxMutexExec_unlock hobject hm with ⟨rfl, rfl⟩ | ⟨rfl, -⟩
  · refine ⟨.out, ?_, hQ⟩
    refine hinv.setHolder hb hcall hk.1 hk.2 ?_ rfl trivial trivial
    intro u
    refine ⟨nofun, ?_⟩
    by_cases hu : u = t
    · subst hu
      simp [Ghost.holding]
    · rw [Function.update_of_ne hu]
      intro hheld
      exact absurd (hinv.holding_unique hheld hmine) hu
  · -- unlocking an initialised mutex does not fail
    simp [lockSteady, linuxMutexExec, hobject] at hm

/-- A step of the initialisation of the mutex. -/
theorem safe_build {p : LinuxMutexOp Unit} {k : p.Res → Prog (threadLinuxSig N H) β} {g : Ghost N}
    (hg : g.building = true)
    (hk : ∀ y (s : Shared N H τ) r m, Knows s g → linuxMutexExec y t p s.2 = some (r, m) →
      ∃ g', g'.holding = false ∧ (∀ v : GuardView N H τ, Noted v t g') ∧ Knows (s.1, m) g' ∧
        ((m.mutex ()).initialized = true → ∃ a, (m.mutex ()).lock = some a ∧
          m.object a = some (.ready none)) ∧ Safe t id c (k r) Q g') :
    Safe t id c (.step (.inr (.inr p)) k) Q g := by
  refine Outline.Wp.step (fun _ _ => rfl) ?_
  intro v G hb hinv hgt hcall
  subst hgt
  refine ⟨trivial, ?_⟩
  intro x r s hexec _
  obtain ⟨m, hm, rfl⟩ := exec_mutex hexec
  obtain ⟨g', hholding, hnoted, hknows, hlive, hrest⟩ := hk _ v.shared r m (hinv.knows t) hm
  exact ⟨g', hinv.build hb hcall hg hknows (hnoted _) hholding hlive, hrest⟩

/-- `tt_mutex_init`, in the one `tt_thread_init`. -/
theorem safe_mutexInit {Q : TtError → Ghost N → Prop} (hQ : ∀ e, Q e .out) :
    Safe t id c ((linuxMutex (.init (some ()))).inr.inr : Prog (threadLinuxSig N H) TtError) Q
      .fresh := by
  refine safe_build rfl fun _ s linuxMutex m hraw hexec => ?_
  have hnot : ∀ {m : LinuxMutexes Unit τ} {P : Prop}, (m.mutex ()).initialized = false →
      (m.mutex ()).initialized = true → P := by
    intro m P hfalse htrue
    rw [hfalse] at htrue
    cases htrue
  rcases linuxMutexExec_malloc hexec with ⟨a, -, rfl, rfl⟩ | ⟨rfl, rfl⟩
  · refine ⟨.made a, rfl, fun _ => trivial, ⟨hraw, by simp⟩, hnot hraw, ?_⟩
    refine safe_build rfl fun _ s ok m hmade hexec => ?_
    rcases linuxMutexExec_init hmade.2 hexec with ⟨rfl, rfl⟩ | ⟨rfl, rfl⟩
    · refine ⟨.ready a, rfl, fun _ => trivial, ⟨hmade.1, by simp⟩, hnot hmade.1, ?_⟩
      refine safe_build rfl fun _ s _ m hready hexec => ?_
      cases hexec
      refine ⟨.pointed a, rfl, fun _ => trivial, ⟨?_, hready.2, ?_⟩, ?_, ?_⟩
      · simpa using hready.1
      · simp
      · simp only [LinuxMutexes.setMutex_mutex, Function.update_self]
        exact hnot hready.1
      · refine safe_build rfl fun _ s _ m hpointed hexec => ?_
        cases hexec
        refine ⟨.out, rfl, fun _ => trivial, trivial, ?_, hQ _⟩
        intro _
        exact ⟨a, by simpa using hpointed.2.2, hpointed.2.1⟩
    · refine ⟨.made a, rfl, fun _ => trivial, hmade, hnot hmade.1, ?_⟩
      refine safe_build rfl fun _ s _ m hmade hexec => ?_
      rw [linuxMutexExec_free hmade.2 hexec]
      exact ⟨.out, rfl, fun _ => trivial, trivial, hnot hmade.1, hQ _⟩
  · exact ⟨.out, rfl, fun _ => trivial, trivial, hnot hraw, hQ _⟩

/-! ### The table functions -/

/-- A program of the table functions, with the mutex functions linked in. -/
abbrev SafeTable (t : τ) (id : Nat) (c : ThreadCall H) (m : Prog (tableSig N (Option H)) β)
    (Q : β → Ghost N → Prop) (g : Ghost N) : Prop :=
  Safe t id c (m.link linuxMutex).inr Q g

theorem safe_bind {α : Type} {m : Prog (tableSig N (Option H)) α}
    {f : α → Prog (tableSig N (Option H)) β} {g : Ghost N}
    (h : SafeTable t id c m (fun a g' => SafeTable t id c (f a) Q g') g) :
    SafeTable t id c (m >>= f) Q g := by
  unfold SafeTable
  rw [Prog.link_bind, Prog.inr_bind]
  exact Outline.Wp.bind h

/-- A call of a mutex function. -/
theorem safe_call {p : MutexCall Unit} {k : p.Res → Prog (tableSig N (Option H)) β} {g : Ghost N}
    (h : Safe t id c (linuxMutex p).inr.inr (fun r g' => SafeTable t id c (k r) Q g') g) :
    SafeTable t id c (.step (.inr p) k) Q g := by
  show Safe t id c ((linuxMutex p).inr >>= fun r => (k r).link linuxMutex).inr Q g
  rw [Prog.inr_bind]
  exact Outline.Wp.bind h

theorem safe_clearSlots {Q : Unit → Ghost N → Prop} (hQ : ∀ tab, Q () (.inside tab)) :
    ∀ (slots : List (Fin N)) (tab : Table N),
      SafeTable t id c (clearSlots slots) Q (.inside tab) := by
  intro slots
  induction slots with
  | nil => exact hQ
  | cons i slots ih =>
      intro tab
      exact safe_clear fun tab' => ih tab'

theorem safe_scan {α : Type} {body : Fin N → Prog (tableSig N (Option H)) (Option α)}
    {Q : Option α → Ghost N → Prop}
    (hbody : ∀ i tab, SafeTable t id c (body i) (fun _ g => ∃ tab', g = .inside tab') (.inside tab))
    (hQ : ∀ a tab, Q a (.inside tab)) :
    ∀ (slots : List (Fin N)) (tab : Table N),
      SafeTable t id c (scan body slots) Q (.inside tab) := by
  intro slots
  induction slots with
  | nil => exact hQ none
  | cons i slots ih =>
      intro tab
      refine safe_bind ((hbody i tab).mono ?_)
      rintro found g ⟨tab', rfl⟩
      cases found with
      | some a => exact hQ (some a) tab'
      | none => exact ih tab'

/-- The whole of a function: one pass over the slots under the mutex. -/
theorem safe_section {α : Type} (inside : Prog (tableSig N (Option H)) α) (result : α → β)
    (hinside : ∀ tab, SafeTable t id c inside (fun _ g => ∃ tab', g = .inside tab') (.inside tab))
    (hQ : ∀ a, Q a .out) :
    SafeTable t id c (.step (.inr (.lock (some ()))) fun _ => inside >>= fun a =>
      .step (.inr (.unlock (some ()))) fun _ => .ret (result a)) Q .out := by
  refine safe_call (safe_lock fun tab => safe_bind ((hinside tab).mono ?_))
  rintro a g ⟨tab', rfl⟩
  exact safe_call (safe_unlock (hQ _))

theorem safe_registerSlot {a : Addr} (i : Fin N) (tab : Table N) :
    SafeTable t id c (registerSlot a i) (fun _ g => ∃ tab', g = .inside tab') (.inside tab) := by
  refine safe_readInUse ?_
  show SafeTable t id c (if !(tab i).inUse then _ else _) _ _
  split
  · rename_i hfree
    exact safe_fill (by simpa using hfree) fun tab' => ⟨tab', rfl⟩
  · exact ⟨tab, rfl⟩

theorem safe_unregisterSlot {a : Addr} (i : Fin N) (tab : Table N) :
    SafeTable t id c (unregisterSlot a i) (fun _ g => ∃ tab', g = .inside tab') (.inside tab) := by
  refine safe_readInUse ?_
  show SafeTable t id c (if (tab i).inUse then _ else _) _ _
  split
  · refine safe_readThread fun thread => ?_
    show SafeTable t id c (if thread = some a then _ else _) _ _
    split
    · exact safe_clear fun tab' => ⟨tab', rfl⟩
    · exact ⟨tab, rfl⟩
  · exact ⟨tab, rfl⟩

theorem safe_findSlot {handle : Option H} (i : Fin N) (tab : Table N) :
    SafeTable t id c (findSlot handle i) (fun _ g => ∃ tab', g = .inside tab') (.inside tab) := by
  refine safe_readInUse ?_
  show SafeTable t id c (if (tab i).inUse then _ else _) _ _
  split
  · refine safe_readThread fun thread => safe_readHandle fun h => ?_
    show SafeTable t id c (if h ≠ handle then _ else _) _ _
    split
    · exact safe_readThread fun _ => ⟨tab, rfl⟩
    · exact ⟨tab, rfl⟩
  · exact ⟨tab, rfl⟩

/-- Every table function but the initialisation. -/
theorem safe_tableFunction {p : TableCall (Option H)} (hp : p ≠ .init)
    {Q : p.Res → Ghost N → Prop} (hQ : ∀ a, Q a .out) :
    SafeTable t id c (tableFunction p) Q .out := by
  cases p with
  | init => exact absurd rfl hp
  | cleanup =>
      refine safe_section (clearSlots (List.finRange N)) (fun _ => TtError.success) ?_ hQ
      exact safe_clearSlots (fun tab => ⟨tab, rfl⟩) (List.finRange N)
  | register thread =>
      cases thread with
      | none => exact hQ _
      | some a =>
          refine safe_section (scan (registerSlot a) (List.finRange N))
            (fun result => result.getD .notFound) ?_ hQ
          exact safe_scan safe_registerSlot (fun _ tab => ⟨tab, rfl⟩) (List.finRange N)
  | unregister thread =>
      cases thread with
      | none => exact hQ _
      | some a =>
          refine safe_section (scan (unregisterSlot a) (List.finRange N))
            (fun result => result.getD .notFound) ?_ hQ
          exact safe_scan safe_unregisterSlot (fun _ tab => ⟨tab, rfl⟩) (List.finRange N)
  | findByHandle handle =>
      refine safe_section (scan (findSlot handle) (List.finRange N))
        (fun result => result.getD none) ?_ hQ
      exact safe_scan safe_findSlot (fun _ tab => ⟨tab, rfl⟩) (List.finRange N)

/-- The initialisation, by the one thread that does it. -/
theorem safe_tableInit {Q : TtError → Ghost N → Prop} (hQ : ∀ e, Q e .out) :
    SafeTable t id c (ttThreadTableInit (H := Option H)) Q .fresh := by
  refine safe_call (safe_mutexInit fun e => ?_)
  show SafeTable t id c (if e ≠ .success then _ else _) Q .out
  split
  · exact hQ e
  · refine safe_section (clearSlots (List.finRange N)) (fun _ => TtError.success) ?_ hQ
    exact safe_clearSlots (fun tab => ⟨tab, rfl⟩) (List.finRange N)

end Steps

/-! ### The thread functions -/

section Functions

variable [DecidableEq H] [DecidableEq τ] {t : τ} {id : Nat} {c : ThreadCall H} {β : Type}
  {Q : β → Ghost N → Prop}

/-- A program that does not initialise the table. -/
theorem safe_link {m : Prog (threadSig H) β} (hm : m.Every NotInit) (hQ : ∀ a, Q a .out) :
    Safe t id c (m.link fun p => (tableFunction p).link linuxMutex) Q .out := by
  induction m with
  | ret a => exact hQ a
  | step p k ih =>
      obtain ⟨hp, hk⟩ := hm
      cases p with
      | inl p => exact safe_thread fun r => ih r (hk r)
      | inr p =>
          refine Outline.Wp.bind ((safe_tableFunction (Q := fun _ g => g = .out) ?_
            fun _ => rfl).mono ?_)
          · intro hinit
            exact hp (congrArg Sum.inr hinit)
          · rintro r g rfl
            exact ih r (hk r)

omit [DecidableEq H] in
/-- Returning keeps the invariant. -/
theorem final (a : TableVal) : (outline N H τ).Final t id c a .out := by
  intro v G hb hinv hgt hcall _
  refine ⟨.out, rfl, ?_⟩
  rw [← hgt, Function.update_eq_self]
  refine ⟨hinv.knows, ?_, hinv.live, ?_, ?_, ?_⟩
  · intro u
    have hold := hinv.noted u
    cases hg : G u with
    | wrote tab i thread =>
        rw [hg] at hold
        obtain ⟨id', c', hc', hlast⟩ := hold
        have hut : u ≠ t := by
          intro hut
          subst hut
          rw [hgt] at hg
          cases hg
        refine ⟨id', c', ?_, ?_⟩
        · rw [View.ret_calls, Function.update_of_ne hut]
          exact hc'
        · rw [View.ret_trace, prims_snoc_ret]
          exact hlast
    | _ => trivial
  · intro u hu
    have hut : u ≠ t := by
      intro hut
      subst hut
      rw [hgt] at hu
      cases hu
    obtain ⟨id', hid'⟩ := hinv.builder u hu
    exact ⟨id', by rw [View.ret_calls, Function.update_of_ne hut]; exact hid'⟩
  · intro hflag
    simp only [started, View.ret_trace, List.any_append, Bool.or_eq_true]
    exact Or.inl (hinv.called hflag)
  · intro id₁ id₂ t₁ t₂ h₁ h₂
    exact hinv.once id₁ id₂ t₁ t₂ (by simpa using h₁) (by simpa using h₂)

end Functions

/-! ### Runs -/

theorem inv_start : ∃ G, Inv (View.start (.zero, .zero) : GuardView N H τ) G ∧
    ∀ t, (outline N H τ).idle (G t) := by
  refine ⟨fun _ => .out, ⟨?_, ?_, ?_, ?_, ?_, ?_⟩, fun _ => rfl⟩
  · intro t; trivial
  · intro t; trivial
  · intro h; cases h
  · intro t h; cases h
  · intro h; cases h
  · intro id id' t u h; cases h

/-- Starting a call keeps the invariant. -/
theorem inv_call [DecidableEq τ] {v : GuardView N H τ} {G : τ → Ghost N} {t : τ}
    {c : ThreadCall H} {g : Ghost N} (hinv : Inv v G) (hok : OneInit v t c)
    (hknows : Knows v.shared g) (hnoted : Noted (v.call t c) t g)
    (hholding : g.holding = (G t).holding) (hbuilding : g.building = true → c = .init) :
    Inv (v.call t c) (Function.update G t g) := by
  refine ⟨?_, ?_, ?_, ?_, ?_, ?_⟩
  · exact (Function.forall_update_iff _ _).mpr ⟨hknows, fun u _ => hinv.knows u⟩
  · refine (Function.forall_update_iff _ _).mpr ⟨hnoted, fun u hu => ?_⟩
    have hold := hinv.noted u
    cases hg : G u with
    | wrote tab i thread =>
        rw [hg] at hold
        obtain ⟨id, c', hc', hlast⟩ := hold
        refine ⟨id, c', ?_, ?_⟩
        · rw [View.call_calls, Function.update_of_ne hu]
          exact hc'
        · rw [View.call_trace, prims_snoc_call]
          exact hlast
    | _ => trivial
  · intro hflag
    obtain ⟨a, holder, hlock, hobject, hiff⟩ := hinv.live hflag
    refine ⟨a, holder, hlock, hobject, fun u => (hiff u).trans ?_⟩
    by_cases hu : u = t
    · subst hu
      rw [Function.update_self, hholding]
    · rw [Function.update_of_ne hu]
  · intro u hu
    by_cases hut : u = t
    · subst hut
      rw [Function.update_self] at hu
      exact ⟨v.next, by rw [View.call_calls, Function.update_self, hbuilding hu]⟩
    · rw [Function.update_of_ne hut] at hu
      obtain ⟨id, hid⟩ := hinv.builder u hu
      exact ⟨id, by rw [View.call_calls, Function.update_of_ne hut]; exact hid⟩
  · intro hflag
    simp only [started, View.call_trace, List.any_append, Bool.or_eq_true]
    exact Or.inl (hinv.called hflag)
  · -- a second initialisation has not been called
    have hnew : ∀ id u, .call id u .init ∈ v.trace → c ≠ .init := by
      rintro id u hcall rfl
      have hstarted : started v.trace = true := List.any_eq_true.mpr ⟨_, hcall, rfl⟩
      rw [show started v.trace = false from hok] at hstarted
      cases hstarted
    intro id id' u u' h h'
    rcases List.mem_append.mp h with hold | hlast
    · rcases List.mem_append.mp h' with hold' | hlast'
      · exact hinv.once id id' u u' hold hold'
      · cases List.mem_singleton.mp hlast'
        exact absurd rfl (hnew id u hold)
    · rcases List.mem_append.mp h' with hold' | hlast'
      · cases List.mem_singleton.mp hlast
        exact absurd rfl (hnew id' u' hold')
      · cases List.mem_singleton.mp hlast
        cases List.mem_singleton.mp hlast'
        rfl

/-- What `Outline.sound` asks about the start of a call. -/
theorem safe_start [DecidableEq H] [DecidableEq τ] (v : GuardView N H τ) (G : τ → Ghost N) (t : τ)
    (c : ThreadCall H) (_ : Books v) (hinv : Inv v G) (_ : v.calls t = none)
    (hidle : G t = .out) (hok : OneInit v t c) (_ : ¬ Refused (v.call t c).trace) :
    ∃ g, Inv (v.call t c) (Function.update G t g) ∧
      Safe t v.next c ((threadSteadySys N H τ).body c) ((outline N H τ).Final t v.next c) g := by
  by_cases hc : c = .init
  · subst hc
    have hraw : (v.shared.2.mutex ()).initialized = false := by
      rw [← Bool.not_eq_true]
      intro hflag
      have hstarted := hinv.called hflag
      rw [show started v.trace = false from hok] at hstarted
      cases hstarted
    refine ⟨.fresh, inv_call hinv hok hraw trivial (by rw [hidle]; rfl) fun _ => rfl, ?_⟩
    show Safe t v.next .init
      (((ttThreadTableInit (H := Option H)).link linuxMutex).inr >>= fun e => .ret (TableVal.err e)) _ _
    exact Outline.Wp.bind (safe_tableInit fun e => final (.err e))
  · refine ⟨.out, inv_call hinv hok trivial trivial (by rw [hidle]) ?_, ?_⟩
    · intro h
      cases h
    · exact safe_link (every_body hc) final

/-- The next step of `t` is on the table. -/
def Within (pl : Pool (threadLinuxSig N H) τ (Shared N H τ) (ThreadCall H) TableVal) (t : τ) :
    Prop :=
  ∃ id c p k, pl.view.calls t = some (id, c) ∧ pl.prog t = some (.step (.inr (.inl p)) k)

/-- The environment's choices for both parts, nothing failing on the mutex. -/
def mutexOk (xs : List (ThreadChoice Nat)) : List (ThreadChoice Nat × LinuxChoice) :=
  xs.map fun x => (x, .ok)

/-- A create that comes to `steps` steps after its thread was started. -/
def creating (t a h steps : Nat) :
    List (Label Nat (ThreadChoice Nat × LinuxChoice) (ThreadCall Nat)) :=
  .call t (.create (some t) none (some 7) none) ::
    (mutexOk (createChoices a h steps)).map (.prim t)

/-- `t` takes `n` steps. -/
def onward (t n : Nat) : List (Label Nat (ThreadChoice Nat × LinuxChoice) (ThreadCall Nat)) :=
  List.replicate n (.prim t (.ok, .ok))

/-- Thread 0 initialises a table of two slots; then thread 1 comes to register a record. -/
def initialised : List (Label Nat (ThreadChoice Nat × LinuxChoice) (ThreadCall Nat)) :=
  List.flatten [
    .call 0 .init :: .prim 0 (.ok, .addr 50) :: onward 0 13, [.ret 0], creating 1 10 100 5]

/-- Two threads come to register a record before anything was initialised, and have both found
the first slot free. -/
def unprepared : List (Label Nat (ThreadChoice Nat × LinuxChoice) (ThreadCall Nat)) :=
  creating 0 10 100 3 ++ creating 1 11 101 3

/-- No flag was found unset. -/
def flagSet : GuardEvent N H τ → Bool
  | .prim _ _ (.inr (.inr (.readInitialized _))) b => b
  | _ => true

theorem not_refused {tr : List (GuardEvent N H τ)} (h : tr.all flagSet = true) :
    ¬ Refused tr := by
  rintro ⟨id, t, hmem⟩
  have hflag := List.all_eq_true.mp h _ hmem
  cases hflag

end Guarded

open Guarded in
/--
**The table is touched only under its mutex, once the mutex is there.**  In every run
with at most one `tt_thread_init` in which no mutex function finds
`g_thread_table_mutex` not initialised: a thread about to access the table holds the
mutex, it gives a record only to a slot that is free and puts it in use as it left it,
and no two threads are among the slots at once.
-/
theorem ttThreadTable_guarded {N : Nat} {H τ : Type} [DecidableEq H] [DecidableEq τ]
    {pl : Pool (threadLinuxSig N H) τ (Shared N H τ) (ThreadCall H) TableVal}
    (h : (threadSteadySys N H τ).Reach OneInit (.zero, .zero) pl)
    (hflag : ¬ Refused pl.view.trace) :
    (∀ t id c p k, pl.view.calls t = some (id, c) → pl.prog t = some (.step p k) →
      Protected pl.view t p) ∧
    ∀ t u, Within pl t → Within pl u → t = u := by
  obtain ⟨G, hinv, -⟩ := (outline N H τ).sound inv_start safe_start h hflag
  have hpre : ∀ t id c p k, pl.view.calls t = some (id, c) → pl.prog t = some (.step p k) →
      Protected pl.view t p :=
    fun t id c p k hc hp => (outline N H τ).sound_pre inv_start safe_start h hflag hc hp
  refine ⟨hpre, ?_⟩
  rintro t u ⟨id, c, p, k, hc, hp⟩ ⟨id', c', p', k', hc', hp'⟩
  obtain ⟨-, a, hlock, hobject⟩ := (hpre t id c _ k hc hp).1
  obtain ⟨-, a', hlock', hobject'⟩ := (hpre u id' c' _ k' hc' hp').1
  rw [hlock] at hlock'
  cases hlock'
  rw [hobject] at hobject'
  cases hobject'
  rfl

open Guarded in
/-- A record is being registered in an initialised table. -/
theorem ttThreadTable_guarded_initialised :
    ∃ pl : Pool (threadLinuxSig 2 Nat) Nat (Shared 2 Nat Nat) (ThreadCall Nat) TableVal,
      (threadSteadySys 2 Nat Nat).Reach OneInit (.zero, .zero) pl ∧ Within pl 1 ∧
      Holds pl.view.shared 1 ∧ ∀ t, Within pl t → t = 1 := by
  have hrun : ((threadSteadySys 2 Nat Nat).run OneInit initialised
      (Sys.start (.zero, .zero))).isSome = true := rfl
  have hreach := Sys.Reach.run _ .start (Option.some_get hrun).symm
  obtain ⟨hpre, hone⟩ := ttThreadTable_guarded hreach (not_refused rfl)
  have hwithin : Within (Option.get _ hrun) 1 := ⟨1, _, _, _, rfl, rfl⟩
  exact ⟨_, hreach, hwithin, (hpre 1 1 _ (.inr (.inl _)) _ rfl rfl).1,
    fun t ht => hone t 1 ht hwithin⟩

open Guarded in
/-- **Before it is initialised, the table is open to everyone.** -/
theorem ttThreadTable_unguarded :
    (∃ pl : Pool (threadLinuxSig 2 Nat) Nat (Shared 2 Nat Nat) (ThreadCall Nat) TableVal,
      (threadSteadySys 2 Nat Nat).Reach OneInit (.zero, .zero) pl ∧ Within pl 0 ∧ Within pl 1 ∧
      ¬ Holds pl.view.shared 0) ∧
    ∃ pl : Pool (threadLinuxSig 2 Nat) Nat (Shared 2 Nat Nat) (ThreadCall Nat) TableVal,
      (threadSteadySys 2 Nat Nat).Reach OneInit (.zero, .zero) pl ∧
      .ret 0 0 (.create (some 0) none (some 7) none) (.err .success) ∈ pl.view.trace ∧
      .ret 1 1 (.create (some 1) none (some 7) none) (.err .success) ∈ pl.view.trace ∧
      pl.view.shared.1.vars 0 = some 10 ∧ pl.view.shared.1.table 0 = ⟨some 11, true⟩ ∧
      pl.view.shared.1.table 1 = .zero := by
  have hrun : ((threadSteadySys 2 Nat Nat).run OneInit unprepared
      (Sys.start (.zero, .zero))).isSome = true := rfl
  have hdone : ((threadSteadySys 2 Nat Nat).run OneInit
      (unprepared ++ onward 0 4 ++ [.ret 0] ++ onward 1 4 ++ [.ret 1])
      (Sys.start (.zero, .zero))).isSome = true := rfl
  refine ⟨⟨_, Sys.Reach.run _ .start (Option.some_get hrun).symm, ⟨0, _, _, _, rfl, rfl⟩,
    ⟨1, _, _, _, rfl, rfl⟩, ?_⟩, _, Sys.Reach.run _ .start (Option.some_get hdone).symm,
    List.mem_of_getElem? (i := 34) rfl, List.mem_of_getLast? rfl, rfl, rfl, rfl⟩
  rintro ⟨hflag, -⟩
  cases hflag

end TinyTools
