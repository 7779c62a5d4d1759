/-
Clients of the thread API, one call after the other.

A record is its client's from the `tt_thread_create` that stored it in a variable to
the `tt_thread_destroy` that returns `TT_SUCCESS`, and only such records are passed to
the functions.  What holds of them between two calls is `Kept`: the handle of each is
the one its OS thread got, and either it is still created and active, or it is
terminated and inactive, as `tt_thread_join` writes both fields.  The table has no other records,
and none of them twice.
-/
import TinyTools.Lib.Calls
import TinyTools.Proofs.Thread.Create
import TinyTools.Proofs.Thread.Mapping
import TinyTools.Proofs.Thread.Records

namespace TinyTools

open Interleave

namespace ThreadUsage

open ThreadCreate
open Thread (holds_iff holds_registered holds_unregistered)

variable {N : Nat} {H τ α : Type} [DecidableEq H] {t : τ}

/-! ### What the functions come to -/

section Threads

variable {s s' : ThreadState N H} {es : List (threadSig H).Done} {a : Addr} {r : TtThread H}
  {result : TtError}

/-- A read of a record that is allocated. -/
theorem run_readIsActive (hr : s.mem a = some r) {k : Bool → Prog (threadSig H) α} {b : α} :
    (threadMachine N H τ).Run t
        (.step (.inl (.readIsActive a) : ThreadOp H ⊕ TableCall (Option H)) k) s es b s' ↔
      ∃ es₁, es = ⟨.inl (.readIsActive a), r.isActive⟩ :: es₁ ∧
        (threadMachine N H τ).Run t (k r.isActive) s es₁ b s' := by
  refine Machine.run_step_det (fun _ => rfl) fun x => ?_
  show readExec x a TtThread.isActive s = some (r.isActive, s)
  unfold readExec
  rw [hr]

theorem run_unregister {thread : Option Addr} {k : TtError → Prog (threadSig H) α} {b : α} :
    (threadMachine N H τ).Run t
        (.step (.inr (.unregister thread) : ThreadOp H ⊕ TableCall (Option H)) k) s es b s' ↔
      ∃ es₁, es = ⟨.inr (.unregister thread), (s.table.unregister thread).1⟩ :: es₁ ∧
        (threadMachine N H τ).Run t (k (s.table.unregister thread).1)
          { s with table := (s.table.unregister thread).2 } es₁ b s' :=
  Machine.run_step_det (fun _ => rfl) fun _ => rfl

/-- `tt_thread_join` fails and changes nothing, or it reaps a thread and says so in the record. -/
theorem run_ttThreadJoin (hr : s.mem a = some r)
    (h : (threadMachine N H τ).Run t (ttThreadJoin (some a)) s es result s') :
    (result = .threadJoin ∧ s' = s) ∨ ∃ h, result = .success ∧
      s' = (s.reap h .joined).setMem a
        (some { r with state := .terminated, isActive := false }) := by
  replace h := run_choice h
  obtain ⟨x, handle, s₁, es₁, hexec, rfl, h⟩ := h
  obtain ⟨rfl, -⟩ := readExec_cases hexec
  replace h := run_choice h
  obtain ⟨y, ok, s₂, es₂, hjoin, rfl, h⟩ := h
  rcases reapExec_cases (Option.some.inj hjoin) with ⟨rfl, rfl⟩ | ⟨h', -, -, rfl, rfl⟩
  · obtain ⟨rfl, rfl, rfl⟩ := Machine.run_ret_iff.mp h
    exact Or.inl ⟨rfl, rfl⟩
  · rw [if_pos rfl, run_write] at h
    obtain ⟨es₃, rfl, h⟩ := h
    rw [run_write] at h
    obtain ⟨es₄, rfl, h⟩ := h
    obtain ⟨rfl, rfl, rfl⟩ := Machine.run_ret_iff.mp h
    refine Or.inr ⟨h', rfl, ?_⟩
    have hmem : (s₁.reap h' .joined).mem a = some r := hr
    rw [hmem, Option.map_some, ThreadState.setMem_mem_self, setMem_setMem]
    rfl

/-- `tt_thread_destroy` of a record that is not active once it is terminated: it fails and changes
nothing, or the record is out of the table and freed. -/
theorem run_ttThreadDestroy (hr : s.mem a = some r)
    (hactive : r.state = .terminated → r.isActive = false)
    (h : (threadMachine N H τ).Run t (ttThreadDestroy (some a)) s es result s') :
    (result ≠ .success ∧ result ≠ .threadDetach ∧ s' = s) ∨ ∃ i, s.table.holds a i = true ∧
      result = .success ∧ s' = { s with mem := Function.update s.mem a none
                                        table := Function.update s.table i .zero } := by
  unfold ttThreadDestroy ttPlatformThreadDestroy at h
  rw [run_readState hr] at h
  obtain ⟨es₁, rfl, h⟩ := h
  by_cases hstate : r.state = .terminated
  · rw [if_neg (not_not_intro hstate)] at h
    rw [run_unregister] at h
    obtain ⟨es₂, rfl, h⟩ := h
    rcases s.table.unregister_cases a with ⟨i, hi, hunregister⟩ | ⟨-, hunregister⟩
    · rw [hunregister] at h
      have hr' :
          ThreadState.mem { s with table := Function.update s.table i .zero } a = some r := hr
      rw [if_neg (not_not_intro rfl), run_readIsActive hr'] at h
      obtain ⟨es₃, rfl, h⟩ := h
      rw [hactive hstate, if_neg Bool.false_ne_true, run_free] at h
      obtain ⟨es₄, rfl, h⟩ := h
      obtain ⟨rfl, rfl, rfl⟩ := Machine.run_ret_iff.mp h
      exact Or.inr ⟨i, hi, rfl, rfl⟩
    · rw [hunregister] at h
      have hnotFound : TtError.notFound ≠ .success := TtError.noConfusion
      rw [if_pos hnotFound] at h
      obtain ⟨rfl, rfl, rfl⟩ := Machine.run_ret_iff.mp h
      exact Or.inl ⟨hnotFound, TtError.noConfusion, rfl⟩
  · rw [if_pos hstate] at h
    obtain ⟨rfl, rfl, rfl⟩ := Machine.run_ret_iff.mp h
    exact Or.inl ⟨TtError.noConfusion, TtError.noConfusion, rfl⟩

end Threads

/-! ### The other functions beside the scheduler -/

/-- What a thread was started with. -/
def core (o : OsThread H) : H × Option Nat := (o.handle, o.stackSize)

/-- A thread that has been started, as the scheduler enters it. -/
def enter (cfg : SchedConfig) (inherited : Int) (c : H × Option Nat) (sched : H → OsSched) :
    H → OsSched :=
  Function.update sched c.1 ⟨inherited, c.2.getD cfg.defaultStackSize, false⟩

/-- The scheduler has entered the threads that were started, and changed nothing else. -/
def Entered (cfg : SchedConfig) (s s' : SchedState N H) : Prop :=
  ∃ news, s'.threads.os.map core = news ++ s.threads.os.map core ∧
    s'.sched = news.foldr (enter cfg s.inherited) s.sched ∧ s'.inherited = s.inherited

section Scheduler

variable {cfg : SchedConfig} {s s' : SchedState N H}

theorem Entered.trans {s₁ s₂ s₃ : SchedState N H} (h : Entered cfg s₁ s₂)
    (h' : Entered cfg s₂ s₃) : Entered cfg s₁ s₃ := by
  obtain ⟨news, hos, hsched, hinherited⟩ := h
  obtain ⟨news', hos', hsched', hinherited'⟩ := h'
  refine ⟨news' ++ news, ?_, ?_, hinherited'.trans hinherited⟩
  · rw [hos', hos, List.append_assoc]
  · rw [hsched', hsched, hinherited, List.foldr_append]

/-- No thread was started. -/
theorem Entered.same (h : Entered cfg s s')
    (hlength : s'.threads.os.length = s.threads.os.length) :
    s' = { s with threads := s'.threads } := by
  obtain ⟨news, hos, hsched, hinherited⟩ := h
  have hnews : news = [] := by
    have hlen := congrArg List.length hos
    simp only [List.length_append, List.length_map] at hlen
    exact List.length_eq_zero_iff.mp (by omega)
  subst hnews
  obtain ⟨th, sched, inherited⟩ := s'
  cases hsched
  cases hinherited
  rfl

/-- One thread was started. -/
theorem Entered.one (h : Entered cfg s s') {o : OsThread H}
    (hos : s'.threads.os = o :: s.threads.os) :
    s' = ⟨s'.threads, enter cfg s.inherited (core o) s.sched, s.inherited⟩ := by
  obtain ⟨news, hnews, hsched, hinherited⟩ := h
  rw [hos, List.map_cons, ← List.singleton_append, List.append_cancel_right_eq] at hnews
  subst hnews
  obtain ⟨th, sched, inherited⟩ := s'
  cases hsched
  cases hinherited
  rfl

/-- Only `pthread_create` starts threads. -/
theorem core_exec {p : (threadSig H).Op} (hp : ∀ a n f g, p ≠ .inl (.pthreadCreate a n f g))
    {x : ThreadChoice H} {s s' : ThreadState N H} {r : (threadSig H).Res p}
    (hexec : (threadMachine N H τ).exec x t p s = some (r, s')) :
    s'.os.map core = s.os.map core := by
  have hreap : ∀ (s : ThreadState N H) h status, (s.reap h status).os.map core = s.os.map core := by
    intro s h status
    unfold ThreadState.reap
    rw [List.map_map]
    refine List.map_congr_left fun o _ => ?_
    show core (if _ then _ else o) = core o
    split <;> rfl
  rcases p with p | c
  · cases p with
    | malloc => rcases threadOpExec_malloc hexec with ⟨-, rfl⟩ | ⟨a, r, -, -, rfl⟩ <;> rfl
    | readState a => rw [(readExec_cases hexec).1]
    | readIsActive a => rw [(readExec_cases hexec).1]
    | readHandle a => rw [(readExec_cases hexec).1]
    | pthreadAttrInit => rw [threadOpExec_attr (Or.inl rfl) hexec]
    | pthreadAttrSetstacksize n => rw [threadOpExec_attr (Or.inr ⟨n, rfl⟩) hexec]
    | pthreadCreate a n f g => exact absurd rfl (hp a n f g)
    | pthreadJoin handle =>
        rcases reapExec_cases (Option.some.inj hexec) with ⟨-, rfl⟩ | ⟨h, -, -, -, rfl⟩
        · rfl
        · exact hreap s h .joined
    | pthreadDetach handle =>
        rcases reapExec_cases (Option.some.inj hexec) with ⟨-, rfl⟩ | ⟨h, -, -, -, rfl⟩
        · rfl
        · exact hreap s h .detached
    | _ =>
        cases hexec
        rfl
  · cases c <;> cases hexec <;> rfl

theorem entered_create {x : SchedChoice H} {a f : Addr} {n : Option Nat} {g : Option Addr}
    {ok : Bool} {th : ThreadState N H}
    (hexec : threadOpExec x.base (.pthreadCreate a n f g) s.threads = some (ok, th)) :
    Entered cfg s ⟨th, spawnSched cfg s (.inl (.pthreadCreate a n f g)) x, s.inherited⟩ := by
  cases x with
  | thread y =>
      cases y with
      | handle h =>
          simp only [SchedChoice.base, threadOpExec] at hexec
          split at hexec
          · cases hexec
          · cases hexec
            exact ⟨[(h, n)], rfl, rfl, rfl⟩
      | _ =>
          cases hexec
          exact ⟨[], rfl, rfl, rfl⟩
  | _ =>
      cases hexec
      exact ⟨[], rfl, rfl, rfl⟩

/-- A step of the other functions does to records and threads what it does there alone. -/
theorem entered_step {x : SchedChoice H} {p : (threadSig H).Op} {r : (threadSig H).Res p}
    (hp : ThreadBody.NotInit p)
    (hexec : (schedMachine cfg N H τ).exec x t (.inr p) s = some (r, s')) :
    (∃ y, (threadMachine N H τ).exec y t p s.threads = some (r, s'.threads)) ∧
      Entered cfg s s' := by
  obtain ⟨⟨r', th⟩, hexec', heq⟩ :=
    Option.map_eq_some_iff.mp ((schedThreadExec_of_ne hp).symm.trans hexec)
  cases heq
  refine ⟨⟨x.base, by rcases p with p | c <;> exact hexec'⟩, ?_⟩
  by_cases hcreate : ∃ a n f g, p = .inl (.pthreadCreate a n f g)
  · obtain ⟨a, n, f, g, rfl⟩ := hcreate
    exact entered_create hexec'
  · refine ⟨[], core_exec (fun a n f g heq => hcreate ⟨a, n, f, g, heq⟩) hexec', ?_, rfl⟩
    show spawnSched cfg s p x = s.sched
    unfold spawnSched
    split
    · exact absurd ⟨_, _, _, _, rfl⟩ hcreate
    · rfl

/-- A program of the other functions. -/
theorem run_threads {m : Prog (threadSig H) α} (hm : m.Every ThreadBody.NotInit) {a : α}
    {es : List (schedSig H).Done} (h : (schedMachine cfg N H τ).Run t m.inr s es a s') :
    ∃ es₁ : List (threadSig H).Done, es = es₁.map (fun e => ⟨.inr e.1, e.2⟩) ∧
      (threadMachine N H τ).Run t m s.threads es₁ a s'.threads ∧ Entered cfg s s' :=
  Machine.run_inr_of_sim (f := SchedState.threads) (R := Entered cfg)
    (fun _ => ⟨[], rfl, rfl, rfl⟩) (fun _ _ _ => Entered.trans) (fun _ _ => rfl) (fun _ _ => rfl)
    (fun _ _ _ _ _ => entered_step) hm h

omit [DecidableEq H] in
/-- A read answers something, wherever it looks. -/
theorem readExec_enabled {β : Type} (a : Addr) (field : TtThread H → β) (s : ThreadState N H) :
    ∃ x v, readExec x a field s = some (v, s) := by
  cases hmem : s.mem a with
  | some r =>
      refine ⟨.ok, field r, ?_⟩
      unfold readExec
      rw [hmem]
  | none =>
      let r : TtThread H := ⟨none, .created, .normal, 0, none, none, 0, false⟩
      refine ⟨.block a r, field r, ?_⟩
      unfold readExec
      rw [hmem]

/-- A thread function can take its next step in every state. -/
theorem enabled (p : (threadSig H).Op) (s : SchedState N H) :
    ∃ x r s', (schedMachine cfg N H τ).exec x t (.inr p) s = some (r, s') := by
  have hlift : ∀ y r th, (threadMachine N H Unit).exec y () p s.threads = some (r, th) →
      p ≠ .inr .init → ∃ x r s', (schedMachine cfg N H τ).exec x t (.inr p) s = some (r, s') := by
    intro y r th hexec hp
    refine ⟨.thread y, r, ⟨th, spawnSched cfg s p (.thread y), s.inherited⟩,
      (schedThreadExec_of_ne hp).trans ?_⟩
    exact Option.map_eq_some_iff.mpr ⟨(r, th), hexec, rfl⟩
  rcases p with p | c
  · have hp : ∀ q : ThreadOp H, (.inl q : (threadSig H).Op) ≠ .inr .init := fun _ => nofun
    cases p with
    | readState a =>
        obtain ⟨y, v, hread⟩ := readExec_enabled a TtThread.state s.threads
        exact hlift y v _ hread (hp _)
    | readIsActive a =>
        obtain ⟨y, v, hread⟩ := readExec_enabled a TtThread.isActive s.threads
        exact hlift y v _ hread (hp _)
    | readHandle a =>
        obtain ⟨y, v, hread⟩ := readExec_enabled a TtThread.handle s.threads
        exact hlift y v _ hread (hp _)
    | _ => exact hlift .fail _ _ rfl (hp _)
  · cases c with
    | init => exact ⟨.mutexInit .success, .success, _, rfl⟩
    | _ => exact hlift .ok _ _ rfl nofun

end Scheduler

/-! ### The clients -/

abbrev SchedEntry (H τ : Type) := LogEntry (schedSig H) τ (SchedCall H) TableVal

/-- One call, as it changes whether the record at `a` is its client's. -/
def ownedStep (a : Addr) (b : Bool) (e : SchedEntry H τ) : Bool :=
  match e.call, e.val with
  | .threadCall (.create _ _ _ _), _ => b || (handed (Machine.seconds e.done)).contains a
  | .threadCall (.destroy thread), .err .success => b && thread ≠ some a
  | _, _ => b

/-- The record at `a` has been created and not been destroyed. -/
def owned (L : List (SchedEntry H τ)) (a : Addr) : Bool := L.foldl (ownedStep a) false

omit [DecidableEq H] in
@[simp] theorem owned_nil (a : Addr) : owned ([] : List (SchedEntry H τ)) a = false := rfl

omit [DecidableEq H] in
@[simp] theorem owned_snoc (L : List (SchedEntry H τ)) (e : SchedEntry H τ) (a : Addr) :
    owned (L ++ [e]) a = ownedStep a (owned L a) e := by
  simp [owned]

omit [DecidableEq H] in
/-- A record whose destroy has failed stays its client's. -/
theorem ownedStep_failed (a : Addr) (b : Bool) (thread : Option Addr) {result : TtError}
    (hfailed : result ≠ .success) {id : Nat} {es : List (schedSig H).Done} :
    ownedStep a b ⟨id, t, .threadCall (.destroy thread), es, .err result⟩ = b := by
  cases result with
  | success => exact absurd rfl hfailed
  | _ => rfl

/-- The clients pass no records but their own. -/
def Own (L : List (SchedEntry H τ)) (_ : SchedState N H) (e : SchedEntry H τ) : Prop :=
  ∀ a, e.call.record = some a → owned L a = true

/-! ### What holds of their records -/

/-- A record is created and active, or terminated and inactive. -/
def Settled (r : TtThread H) : Prop :=
  r.state = .created ∧ r.isActive = true ∨ r.state = .terminated ∧ r.isActive = false

omit [DecidableEq H] in
theorem Settled.inactive {r : TtThread H} (h : Settled r) (hstate : r.state = .terminated) :
    r.isActive = false := by
  rcases h with ⟨hcreated, -⟩ | ⟨-, hinactive⟩
  · rw [hstate] at hcreated
    cases hcreated
  · exact hinactive

/-- The record at `a` is settled, and its handle is the one of the OS thread started for it. -/
def Sound (s : ThreadState N H) (a : Addr) : Prop :=
  ∃ r o, s.mem a = some r ∧ s.startedFor a = some o ∧ r.handle = some o.handle ∧ Settled r

/-- The records of the clients, and the table. -/
structure Kept (mine : Addr → Bool) (s : ThreadState N H) : Prop where
  sound : ∀ a, mine a = true → Sound s a
  slots : ∀ i, (s.table i).inUse = true → ∃ a, (s.table i).thread = some a ∧ mine a = true
  once : ∀ i j a, s.table.holds a i = true → s.table.holds a j = true → i = j

section Kept

variable {mine : Addr → Bool} {s s' : ThreadState N H} {a : Addr}

omit [DecidableEq H] in
theorem kept_zero : Kept (fun _ => false) (.zero : ThreadState N H) := by
  refine ⟨fun a ha => Bool.noConfusion ha, ?_, ?_⟩
  · intro i hi
    cases hi
  · intro i j a hi
    cases (holds_iff.mp hi).1

omit [DecidableEq H] in
theorem Kept.mem (h : Kept mine s) (ha : mine a = true) : s.mem a ≠ none := by
  obtain ⟨r, o, hr, -⟩ := h.sound a ha
  rw [hr]
  exact Option.some_ne_none r

omit [DecidableEq H] in
/-- A record in the table is its client's. -/
theorem Kept.own (h : Kept mine s) {i : Fin N} (hi : s.table.holds a i = true) : mine a = true := by
  obtain ⟨hused, hthread⟩ := holds_iff.mp hi
  obtain ⟨b, hb, hown⟩ := h.slots i hused
  rw [hthread] at hb
  cases hb
  exact hown

omit [DecidableEq H] in
/-- A step that leaves the table and soundness alone. -/
theorem Kept.of_table (h : Kept mine s) (htable : s'.table = s.table)
    (hsound : ∀ a, mine a = true → Sound s a → Sound s' a) : Kept mine s' := by
  refine ⟨fun a ha => hsound a ha (h.sound a ha), ?_, ?_⟩
  · rw [htable]
    exact h.slots
  · rw [htable]
    exact h.once

omit [DecidableEq H] in
/-- The table is cleared. -/
theorem Kept.clear (h : Kept mine s) : Kept mine { s with table := .zero N } := by
  refine ⟨h.sound, ?_, ?_⟩
  · intro i hi
    cases hi
  · intro i j a hi
    cases (holds_iff.mp hi).1

omit [DecidableEq H] in
theorem Sound.setMem_of_ne {b : Addr} (hb : b ≠ a) (r : Option (TtThread H)) (h : Sound s b) :
    Sound (s.setMem a r) b := by
  obtain ⟨r', o, hr, ho⟩ := h
  exact ⟨r', o, (s.setMem_mem_of_ne hb r).trans hr, ho⟩

omit [DecidableEq H] in
/-- The record at `a` changes, but not its handle. -/
theorem Kept.setMem (h : Kept mine s) {r r' : TtThread H} (hr : s.mem a = some r)
    (hhandle : r'.handle = r.handle) (hsettled : Settled r → Settled r') :
    Kept mine (s.setMem a (some r')) := by
  refine h.of_table rfl ?_
  intro b _ hb
  by_cases hba : b = a
  · subst hba
    obtain ⟨r₀, o, hr₀, ho, hro, hst⟩ := hb
    rw [hr] at hr₀
    cases hr₀
    exact ⟨r', o, ThreadState.setMem_mem_self .., ho, hhandle.trans hro, hsettled hst⟩
  · exact hb.setMem_of_ne hba _

theorem Kept.reap (h : Kept mine s) (handle : H) (status : OsStatus) :
    Kept mine (s.reap handle status) := by
  refine h.of_table rfl ?_
  rintro b _ ⟨r, o, hr, ho, hro, hst⟩
  refine ⟨r, if o.handle = handle ∧ o.status = .joinable then { o with status := status } else o,
    hr, ?_, ?_, hst⟩
  · rw [ThreadState.startedFor_reap, ho]
    rfl
  · split
    · exact hro
    · exact hro

omit [DecidableEq H] in
/-- A thread has been started for another record. -/
theorem Sound.thread {b : Addr} {o : OsThread H} (hb : b ≠ o.record) (h : Sound s b) :
    Sound { s with os := o :: s.os } b := by
  obtain ⟨r, o', hr, ho, hrest⟩ := h
  exact ⟨r, o', hr, (s.startedFor_spawn_of_ne hb).trans ho, hrest⟩

omit [DecidableEq H] in
/-- Memory that was not allocated is nobody's. -/
theorem Kept.ne_of_free (h : Kept mine s) (hmem : s.mem a = none) {b : Addr} (hb : mine b = true) :
    b ≠ a := by
  rintro rfl
  exact h.mem hb hmem

/-- A `tt_thread_create` hands out records that are sound. -/
theorem Kept.create (h : Kept mine s) {thread : Option Addr} {attr : Option TtThreadAttr}
    {func arg : Option Addr} {es : List (threadSig H).Done} {result : TtError}
    (hout : ThreadCreate.Outcome thread attr func arg s es result s') :
    Kept (fun a => mine a || (handed es).contains a) s' := by
  cases hout with
  | null => simpa [handed] using h
  | refused _ _ hhanded => simpa [hhanded] using h
  | @full _ v f a handle _ _ _ hhanded hmem _ _ =>
      have hkept : Kept mine { s with os := newThread attr f arg a handle :: s.os } :=
        h.of_table rfl fun b hb hsound => hsound.thread (h.ne_of_free hmem hb)
      simpa [hhanded] using hkept
  | @created _ v f a handle i _ _ _ hhanded hmem _ hslot =>
      have hmine : ∀ b, (mine b || (handed es).contains b) = true ↔ mine b = true ∨ a = b := by
        intro b
        rw [hhanded, Bool.or_eq_true, List.contains_iff_mem, List.mem_singleton]
        exact or_congr_right eq_comm
      have hnot : ∀ j, s.table.holds a j ≠ true := fun j hj => h.mem (h.own hj) hmem
      refine ⟨?_, ?_, ?_⟩
      · intro b hb
        rcases (hmine b).mp hb with hb | rfl
        · have hba := h.ne_of_free hmem hb
          exact ((h.sound b hb).setMem_of_ne hba _).thread (o := newThread attr f arg a handle) hba
        · refine ⟨newRecord attr f arg handle, newThread attr f arg a handle,
            ThreadState.setMem_mem_self .., ?_, rfl, Or.inl ⟨rfl, rfl⟩⟩
          exact ThreadState.startedFor_spawn_self s (newThread attr f arg a handle)
      · intro j hj
        by_cases hji : j = i
        · subst hji
          exact ⟨a, by simp, (hmine a).mpr (Or.inr rfl)⟩
        · simp only [Function.update_of_ne hji] at hj ⊢
          obtain ⟨b, hb, hown⟩ := h.slots j hj
          exact ⟨b, hb, (hmine b).mpr (Or.inl hown)⟩
      · intro j k b hj hk
        rcases holds_registered.mp hj with ⟨rfl, rfl⟩ | ⟨-, hj'⟩
        · rcases holds_registered.mp hk with ⟨rfl, -⟩ | ⟨-, hk'⟩
          · rfl
          · exact absurd hk' (hnot k)
        · rcases holds_registered.mp hk with ⟨-, rfl⟩ | ⟨-, hk'⟩
          · exact absurd hj' (hnot j)
          · exact h.once j k b hj' hk'

omit [DecidableEq H] in
/-- The record at `a` is taken out of the table and freed. -/
theorem Kept.destroy (h : Kept mine s) {i : Fin N} (hi : s.table.holds a i = true) :
    Kept (fun b => mine b && decide (some a ≠ some b))
      { s with mem := Function.update s.mem a none, table := Function.update s.table i .zero } := by
  have hmine : ∀ b, (mine b && decide (some a ≠ some b)) = true ↔ mine b = true ∧ b ≠ a := by
    intro b
    rw [Bool.and_eq_true, decide_eq_true_iff]
    refine and_congr_right fun _ => ⟨?_, ?_⟩
    · rintro hne rfl
      exact hne rfl
    · intro hne heq
      exact hne (Option.some.inj heq).symm
  refine ⟨?_, ?_, ?_⟩
  · intro b hb
    obtain ⟨hb, hba⟩ := (hmine b).mp hb
    exact (h.sound b hb).setMem_of_ne hba none
  · intro j hj
    by_cases hji : j = i
    · subst hji
      simp [TtThreadTableEntry.zero] at hj
    · simp only [Function.update_of_ne hji] at hj ⊢
      obtain ⟨b, hb, hown⟩ := h.slots j hj
      refine ⟨b, hb, (hmine b).mpr ⟨hown, ?_⟩⟩
      rintro rfl
      exact hji (h.once j i _ (holds_iff.mpr ⟨hj, hb⟩) hi)
  · intro j k b hj hk
    exact h.once j k b (holds_unregistered.mp hj).2 (holds_unregistered.mp hk).2

/-- The calls of the other functions. -/
theorem Kept.call {c : ThreadCall H} {es : List (threadSig H).Done} {v : TableVal} {id : Nat}
    (h : Kept mine s) (hc : c ≠ .init) (hown : ∀ a, c.record = some a → mine a = true)
    (hrun : (threadMachine N H τ).Run t (threadBody c) s es v s') :
    Kept (fun a => ownedStep a (mine a)
      (⟨id, t, .threadCall c, es.map fun e => ⟨.inr e.1, e.2⟩, v⟩ : SchedEntry H τ)) s' := by
  cases c with
  | init => exact absurd rfl hc
  | create thread attr func arg =>
      replace hrun := (Machine.run_map_iff fun _ _ => rfl).mp hrun
      obtain ⟨result, rfl, hrun⟩ := hrun
      have hkept := h.create (run_ttThreadCreate hrun)
      unfold ownedStep
      rw [Machine.seconds_map]
      exact hkept
  | join thread =>
      replace hrun := (Machine.run_map_iff fun _ _ => rfl).mp hrun
      obtain ⟨result, rfl, hrun⟩ := hrun
      cases thread with
      | none =>
          obtain ⟨-, -, rfl⟩ := Machine.run_ret_iff.mp hrun
          exact h
      | some a =>
          obtain ⟨r, o, hr, -⟩ := h.sound a (hown a rfl)
          rcases run_ttThreadJoin hr hrun with ⟨-, rfl⟩ | ⟨handle, -, rfl⟩
          · exact h
          · exact (h.reap handle .joined).setMem (r := r) hr rfl fun _ => Or.inr ⟨rfl, rfl⟩
  | destroy thread =>
      replace hrun := (Machine.run_map_iff fun _ _ => rfl).mp hrun
      obtain ⟨result, rfl, hrun⟩ := hrun
      cases thread with
      | none =>
          obtain ⟨-, rfl, rfl⟩ := Machine.run_ret_iff.mp hrun
          exact h
      | some a =>
          obtain ⟨r, o, hr, -, -, hsettled⟩ := h.sound a (hown a rfl)
          rcases run_ttThreadDestroy hr hsettled.inactive hrun with
            ⟨hfailed, -, rfl⟩ | ⟨i, hi, rfl, rfl⟩
          · simp only [ownedStep_failed _ _ _ hfailed]
            exact h
          · exact h.destroy hi
  | findByHandle handle =>
      replace hrun := (Machine.run_step_det (fun _ => rfl) fun _ => rfl).mp hrun
      obtain ⟨es₁, rfl, hrun⟩ := hrun
      obtain ⟨rfl, rfl, rfl⟩ := Machine.run_ret_iff.mp hrun
      exact h

end Kept

/-! ### Runs -/

section Runs

variable {cfg : SchedConfig} {s s' : SchedState N H} {es : List (schedSig H).Done} {v : TableVal}
  {L : List (SchedEntry H τ)} {id : Nat}

/-- `tt_thread_init` clears the table, or fails. -/
theorem run_init (h : (schedMachine cfg N H τ).Run t (threadBody .init).inr s es v s') :
    s' = s ∨ s' = { s with threads.table := .zero N } := by
  replace h := (Machine.run_step_iff fun _ => rfl).mp h
  obtain ⟨x, r, s₁, es₁, hexec, rfl, h⟩ := h
  change schedThreadExec cfg x (.inr .init) s = some (r, s₁) at hexec
  obtain ⟨rfl, rfl, rfl⟩ := Machine.run_ret_iff.mp h
  rcases schedThreadExec_init hexec with ⟨-, rfl⟩ | ⟨-, rfl⟩
  · exact Or.inl rfl
  · exact Or.inr rfl

theorem Kept.run {mine : Addr → Bool} (h : Kept mine s.threads) {c : SchedCall H}
    (hown : ∀ a, c.record = some a → mine a = true)
    (hrun : (schedMachine cfg N H τ).Run t (schedBody c) s es v s') :
    Kept (fun a => ownedStep a (mine a) ⟨id, t, c, es, v⟩) s'.threads := by
  cases c with
  | threadCall c =>
      by_cases hc : c = .init
      · subst hc
        rcases run_init hrun with rfl | rfl
        · exact h
        · exact h.clear
      · obtain ⟨es₁, rfl, hrun, -⟩ := run_threads (ThreadBody.every_body hc) hrun
        exact h.call hc hown hrun
  | setPriority thread priority =>
      replace hrun := (Machine.run_map_iff fun _ _ => rfl).mp hrun
      obtain ⟨result, rfl, hrun⟩ := hrun
      cases thread with
      | none =>
          obtain ⟨-, -, rfl⟩ := Machine.run_ret_iff.mp hrun
          exact h
      | some a =>
          obtain ⟨r, o, hr, -⟩ := h.sound a (hown a rfl)
          cases ThreadMapping.run_ttThreadSetPriority hr hrun with
          | invalid _ => exact h
          | set _ _ _ => exact h.setMem hr rfl fun hst => hst

/-- **What clients that pass their own records find between two calls.** -/
theorem kept_of_calls (h : Calls (schedSys cfg N H τ) Outside Own .zero L s) :
    Kept (owned L) s.threads := by
  refine Calls.invariant (P := fun L s => Kept (owned L) s.threads) ?_ ?_ ?_ h
  · exact kept_zero
  · intro L s s' hkept henv
    cases henv <;> exact hkept
  · intro L s s' e hkept he hrun
    have hsnoc : owned (L ++ [e]) = fun a => ownedStep a (owned L a) e := funext (owned_snoc L e)
    rw [hsnoc]
    exact hkept.run he hrun

/-- The first call of a run creates a record. -/
theorem calls_create {thread : Option Addr} {attr : Option TtThreadAttr} {func arg : Option Addr}
    (h : (schedSys cfg N H τ).Run t ((schedSys cfg N H τ).body
      (.threadCall (.create thread attr func arg))) .zero es v s) {a : Addr}
    (ha : a ∈ handed (Machine.seconds es)) :
    Calls (schedSys cfg N H τ) Outside Own .zero
        [⟨0, t, .threadCall (.create thread attr func arg), es, v⟩] s ∧
      owned [(⟨0, t, .threadCall (.create thread attr func arg), es, v⟩ : SchedEntry H τ)] a =
        true := by
  have hstart : Calls (schedSys cfg N H τ) Outside Own .zero [] .zero := .nil
  have hown : Own [] (.zero : SchedState N H) (⟨0, t, .threadCall (.create thread attr func arg),
      es, v⟩ : SchedEntry H τ) := by
    rintro a ⟨⟩
  exact ⟨hstart.call hown h, List.contains_iff_mem.mpr ha⟩

end Runs

end ThreadUsage

end TinyTools
