/-
The calls of the thread API complete, down to the steps of the mutex.

A create takes the mutex of the table twice when the table is full, a destroy takes it
once, and otherwise neither waits for anybody.  `pthread_join` does: what is said of a
join is that nothing but the OS keeps it waiting.
-/
import TinyTools.Proofs.Thread.Linked

namespace TinyTools

open Interleave

namespace ThreadLink

variable {N : Nat} {H τ : Type}

/-! ### Nobody waits but for the mutex -/

section Turns

variable [DecidableEq H]

theorem threadOpExec_can (p : ThreadOp H) (s : ThreadState N H) :
    ∃ x r s', threadOpExec x p s = some (r, s') := by
  have hread : ∀ {β : Type} (a : Addr) (field : TtThread H → β),
      ∃ x r s', readExec x a field s = some (r, s') := by
    intro β a field
    unfold readExec
    rcases s.mem a with _ | r
    · exact ⟨.block 0 ⟨none, .created, .normal, 0, none, none, 0, false⟩, _, _, rfl⟩
    · exact ⟨.ok, _, _, rfl⟩
  cases p with
  | readState a => exact hread a TtThread.state
  | readIsActive a => exact hread a TtThread.isActive
  | readHandle a => exact hread a TtThread.handle
  | _ => exact ⟨.ok, _, _, rfl⟩

omit [DecidableEq H] in
theorem threadTableExec_can {p : TableOp N} (hp : Slot (H := H) (.inl p)) (s : ThreadState N H) :
    ∃ x r s', threadTableExec x p s = some (r, s') := by
  cases p with
  | readHandle thread => exact absurd rfl (hp thread)
  | readInUse i | writeInUse i b | readThread i | writeThread i thread => exact ⟨.ok, _, _, rfl⟩

/-- The mutex of the table, in the state of the thread subsystem. -/
def turns (N : Nat) (H τ : Type) [DecidableEq H] : Turns (lockedMachine N H τ) where
  holder s := s.2
  stable _ := True
  own
    | .inl _ => True
    | .inr p => Slot p
  take p := p = .inr (.inr (.lock (some ())))
  give p := p = .inr (.inr (.unlock (some ())))
  ans _ _ := True
  sound _ _ _ := ⟨trivial, trivial, rfl⟩
  holder_own := by
    rintro x t (p | p | p) s r s' hp - hexec
    · obtain ⟨rs, -, heq⟩ := Option.map_eq_some_iff.mp hexec
      cases heq
      rfl
    · obtain ⟨rs, -, heq⟩ := Option.map_eq_some_iff.mp hexec
      cases heq
      rfl
    · exact hp.elim
  holder_take := by
    rintro x t _ ⟨s, _ | u⟩ r s' rfl hexec
    · cases hexec
      exact ⟨rfl, rfl⟩
    · cases hexec
  holder_give := by
    rintro x t _ s r s' rfl hexec -
    cases hexec
    rfl
  can := by
    rintro t p ⟨s, h⟩ - (hown | ⟨rfl, hnone⟩ | ⟨rfl, -⟩)
    · rcases p with p | p | p
      · obtain ⟨x, r, s', hexec⟩ := threadOpExec_can p s
        exact ⟨x, r, (s', h), Option.map_eq_some_iff.mpr ⟨_, hexec, rfl⟩⟩
      · obtain ⟨x, r, s', hexec⟩ := threadTableExec_can hown s
        exact ⟨x, r, (s', h), Option.map_eq_some_iff.mpr ⟨_, hexec, rfl⟩⟩
      · exact hown.elim
    · cases hnone
      exact ⟨.ok, _, _, rfl⟩
    · exact ⟨.ok, _, _, rfl⟩

/-- A pass over the slots under the mutex. -/
theorem rounds_section {α β : Type} {body : Fin N → Prog (tableSig N (Option H)) (Option α)}
    (hbody : ∀ i, (body i).Every Slot) (result : Option α → β) :
    (turns N H τ).Rounds false (Prog.step (S := tableSig N (Option H)) (.inr (.lock (some ())))
      fun _ => scan body (List.finRange N) >>= fun a =>
      .step (.inr (.unlock (some ()))) fun _ => .ret (result a)).inr := by
  refine Or.inr (Or.inl ⟨rfl, rfl, fun _ _ => ?_⟩)
  dsimp only
  rw [Prog.inr_bind]
  exact Turns.rounds_section (every_scan hbody _).inr rfl fun _ _ _ => rfl

theorem rounds_keeping {p : TableCall (Option H)} (hp : Keeping H p) :
    (turns N H τ).Rounds false (tableFunction p).inr := by
  rcases p with _ | _ | (_ | a) | (_ | a) | handle
  case register.some => exact rounds_section (every_registerSlot a) _
  case unregister.some => exact rounds_section (every_unregisterSlot a) _
  all_goals exact hp.elim

end Turns

/-! ### Calls are short -/

theorem short_platformThreadCreate (thread : Option Addr) (attr : Option TtThreadAttr)
    (func arg : Option Addr) :
    (ttPlatformThreadCreate thread attr func arg : Prog (threadSig H) TtError).Short 5 := by
  have hwith : ∀ a n f, (pthreadCreateWith a n f arg : Prog (threadSig H) TtError).Short 3 :=
    fun _ _ _ _ _ _ => trivial
  unfold ttPlatformThreadCreate
  split
  · refine fun ok => Prog.short_ite trivial ?_
    cases attr with
    | none => exact (hwith _ _ _).mono (by decide)
    | some attr =>
        refine Prog.short_ite (fun ok => Prog.short_ite (fun _ => trivial) (hwith _ _ _)) ?_
        exact (hwith _ _ _).mono (by decide)
  · trivial

theorem short_platformThreadDestroy (thread : Option Addr) :
    (ttPlatformThreadDestroy thread : Prog (threadSig H) TtError).Short 7 := by
  cases thread with
  | none => trivial
  | some a =>
      refine fun state => Prog.short_ite trivial fun result => Prog.short_ite trivial fun isActive => ?_
      exact Prog.short_ite (fun handle ok => Prog.short_ite trivial fun _ _ => trivial) fun _ => trivial

theorem short_threadCreate (thread : Option Addr) (attr : Option TtThreadAttr)
    (func arg : Option Addr) : (ttThreadCreate thread attr func arg : Prog (threadSig H) TtError).Short 22 := by
  unfold ttThreadCreate
  split
  · intro newThread
    cases newThread with
    | none => trivial
    | some a =>
        refine fun _ _ _ _ _ _ _ => Prog.Short.bind (j := 9) (fun result => ?_)
          (short_platformThreadCreate _ _ _ _)
        refine Prog.short_ite (fun _ => trivial) fun registered => ?_
        refine Prog.short_ite ?_ fun _ => trivial
        refine Prog.Short.bind (j := 1) (fun _ => ?_) (short_platformThreadDestroy _)
        exact fun _ => trivial
  · trivial

theorem short_threadBody (c : ThreadCall H) : (threadBody c).Short 22 := by
  cases c with
  | init | findByHandle handle => exact fun _ => trivial
  | create thread attr func arg => exact (short_threadCreate _ _ _ _).map _
  | destroy thread => exact ((short_platformThreadDestroy thread).mono (by decide)).map _
  | join thread =>
      refine Prog.Short.map (m := ttThreadJoin thread) _ ?_
      cases thread with
      | none => trivial
      | some a => exact fun handle ok => Prog.short_ite (fun _ _ => trivial) trivial

theorem short_linked [DecidableEq H] {c : ThreadCall H} (hc : Managing c) :
    (linked (N := N) (threadBody c)).Short (22 * (12 * N + 6)) := by
  refine Prog.Short.link (P := Levels.Uses (Keeping H)) (n := 12 * N + 5) ?_ (uses_body hc)
    (short_threadBody c)
  intro p hp
  have hshort : (tableFunction (N := N) p).Short (N * 4 + 2) := by
    rcases p with _ | _ | (_ | a) | (_ | a) | handle
    case register.some =>
      exact Table.short_section (Table.short_scan (Table.short_registerSlot a) _) fun _ => ⟨_, rfl⟩
    case unregister.some =>
      exact Table.short_section (Table.short_scan (Table.short_unregisterSlot a) _) fun _ => ⟨_, rfl⟩
    all_goals exact hp.elim
  have huses : (tableFunction (N := N) p).Every (Levels.Uses (Lock.Use .linux)) :=
    ((every_keeping hp).mono fun _ hq => hq.1).mono fun q hq => by
      rcases q with q | q
      · trivial
      · exact Lock.Locks.use hq
  refine Prog.Short.mono (i := (N * 4 + 2) * 3) (by omega) ?_
  exact Prog.Short.link (n := 2) (fun _ hq => Lock.short_mutex (b := .linux) hq) huses hshort

end ThreadLink

open ThreadLink

/--
**The calls of the thread API complete.** After a `tt_thread_init` that succeeded, in
whatever state the threads are that create, join and destroy: without further calls they
get on at most `264 * N + 133` times for each call in progress, and as long as one is in
progress one of them can.
-/
theorem ttThread_linked_completes {N : Nat} {H τ : Type} [DecidableEq H] [DecidableEq τ] {t₀ : τ}
    {s₀ : ThreadState N H × LinuxMutexes Unit τ}
    (hinit : (threadSteadySys N H τ).Returns t₀ (linked ttThreadInit) (.zero, .zero) .success s₀)
    {ok : List (SeenEvent H τ) → τ → ThreadCall H → Prop}
    (hok : ∀ tr t c, ok tr t c → Managing c)
    {pl : Pool (threadLinuxSig N H) τ (ThreadState N H × LinuxMutexes Unit τ) (ThreadCall H) TableVal}
    (h : (threadSteadySys N H τ).Reach (promise own ok) s₀ pl) :
    (threadSteadySys N H τ).Completes (264 * N + 133) pl ∧
      ∃ pl', (threadSteadySys N H τ).Calm pl pl' ∧ ∀ t, pl'.view.calls t = none := by
  obtain ⟨hzero, p, hp⟩ := returns_init hinit
  have h : ((linuxLevels N H τ p).below fun c => linked (threadBody c)).Reach (promise own ok) s₀ pl :=
    h
  have hcompletes := (linuxImplements N H τ p).completes
    (f := fun c => (threadBody c).link tableFunction) (n := 22 * (12 * N + 6)) (a := (.zero, none))
    Levels.implements_live (fun _ _ c _ => linked_eq (threadBody c))
    (fun tr t c hc => locks_body (hok tr t c hc)) (fun tr t c hc => short_linked (hok tr t c hc))
    ⟨hzero.symm, hp⟩
    (fun pa t hpa => Turns.moves (K := turns N H τ) trivial rfl (fun v t c hc =>
      Levels.rounds_link (fun _ => trivial) (fun _ => rounds_keeping) (uses_body (hok _ t c hc))) hpa) h
  rw [show 22 * (12 * N + 6) + 1 = 264 * N + 133 by omega] at hcompletes
  exact ⟨hcompletes, hcompletes.ends⟩

/-- One create is among the slots and another one waits for it. -/
theorem ttThread_linked_completes_waiting :
    ∃ pl, (threadSteadySys 1 Nat Nat).Reach (promise own OwnedSeen) initialised pl ∧
      pl.view.calls 0 = some (0, .create (some 0) none (some 7) none) ∧
      pl.view.calls 1 = some (1, .create (some 1) none (some 7) none) ∧
      (threadSteadySys 1 Nat Nat).step (.prim 1 (.ok, .ok)) pl = none ∧
      ∃ pl', (threadSteadySys 1 Nat Nat).Calm pl pl' ∧ ∀ t, pl'.view.calls t = none := by
  have hrun : ((threadSteadySys 1 Nat Nat).run (promise own OwnedSeen)
      (Guarded.creating 0 10 20 5 ++ Guarded.creating 1 11 21 3) (Sys.start initialised)).isSome =
        true := rfl
  have hreach := Sys.Reach.run _ .start (Option.some_get hrun).symm
  exact ⟨_, hreach, rfl, rfl, rfl,
    (ttThread_linked_completes initialised_returns (fun _ _ _ hc => hc.managing) hreach).2⟩

end TinyTools
