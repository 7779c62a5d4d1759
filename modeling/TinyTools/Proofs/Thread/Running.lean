/-
Threads at work, and what the API says of them.

`tt_thread_create` gives `func` itself to `pthread_create`.  Nothing of the library runs
in the new thread, so nothing stores `TT_THREAD_STATE_RUNNING`, and the state of a record
says that its thread has terminated only once somebody has joined it.

Nor does the new thread wait for its creator, which registers the record and hands it
out after `pthread_create` has returned.  A thread that has been started before that is
not in the table, and will never be if the table is full.
-/
import TinyTools.Proofs.Thread.Telling

namespace TinyTools

open Interleave

namespace Running

open Thread (ThreadView ledger InTable Owned Joined)
open ThreadLife (Stale Tells Lists registered registered_snoc registeredStep settled stale_snoc
  extra_of_reach stored_iff stateOf)

variable {N : Nat} {H τ : Type}

/-! ### What the runs are of -/

/-- The clients keep their promise, whatever the threads do. -/
def Promised (w : World N H τ) : WorldLabel H τ → Prop
  | .api l => Sys.Allowed Owned w.pool.view l
  | .start _ | .work _ | .finish _ => True

instance (w : World N H τ) (l : WorldLabel H τ) : Decidable (Promised w l) :=
  match l with
  | .api l => inferInstanceAs (Decidable (Sys.Allowed Owned w.pool.view l))
  | .start _ | .work _ | .finish _ => inferInstanceAs (Decidable True)

/-- The create that made thread `n` has had `TT_SUCCESS` from `tt_thread_table_register`. -/
def due (v : ThreadView N H τ) (n : Nat) : Bool :=
  (v.shared.osThread n).any fun o =>
    decide (v.shared.threadOf o.record = some n) && registered v.trace o.record

/-- The clients keep their promise, and the OS starts a thread only once it is due. -/
def Timely (w : World N H τ) : WorldLabel H τ → Prop
  | .api l => Sys.Allowed Owned w.pool.view l
  | .start n => due w.pool.view n = true
  | .work _ | .finish _ => True

instance (w : World N H τ) (l : WorldLabel H τ) : Decidable (Timely w l) :=
  match l with
  | .api l => inferInstanceAs (Decidable (Sys.Allowed Owned w.pool.view l))
  | .start n => inferInstanceAs (Decidable (due w.pool.view n = true))
  | .work _ | .finish _ => inferInstanceAs (Decidable True)

theorem timely_promised (w : World N H τ) (l : WorldLabel H τ) (h : Timely w l) :
    Promised w l := by
  cases l with
  | api l => exact h
  | start n | work n | finish n => trivial

/-- What state `st` says of a thread in phase `phase`. -/
structure Fits (st : TtThreadState) (phase : Option RunPhase) : Prop where
  created : st = .created → phase = some .ready
  running : st = .running → phase = some .running
  terminated : st = .terminated ↔ phase = some .returned

variable [DecidableEq H]

/-- `tt_thread_get_state` on the record at `a` yields a state that fits its thread. -/
def Reports (w : World N H τ) (t : τ) (v a : Addr) : Prop :=
  (threadMachine N H τ).Answers t w.shared (fun r => ∃ st, r = .ok st ∧ Fits st (w.phaseOf a))
    (ttThreadGetState (some a) (some v))

/-- `tt_thread_destroy` on the record at `a` returns `TT_ERROR_THREAD_ACTIVE` exactly when its
thread has not returned yet. -/
def Refuses (w : World N H τ) (t : τ) (a : Addr) : Prop :=
  (threadMachine N H τ).Answers t w.shared
    (fun e => e = .threadActive ↔ w.phaseOf a ≠ some .returned) (ttThreadDestroy (some a))

/-! ### A thread that has been joined has returned -/

theorem returned_of_awaited {w : World N H τ} {h : H} (hreturned : w.returned h = true) {n : Nat}
    {o : OsThread H} (hn : w.shared.osThread n = some o) (hhandle : o.handle = h)
    (hjoinable : o.status = .joinable) : w.phase n = .returned := by
  unfold World.returned at hreturned
  have hall := List.all_eq_true.mp hreturned n (List.mem_range.mpr (ThreadState.osThread_lt hn))
  rw [hn] at hall
  exact of_decide_eq_true hall hhandle hjoinable

variable [DecidableEq τ]

/-- What one step of the clients does to the threads that have been joined. -/
theorem joined_api {w : World N H τ} {l : Label τ (ThreadChoice H) (ThreadCall H)}
    (hawaited : w.awaited l = true)
    {pool : Pool (threadSig H) τ (ThreadState N H) (ThreadCall H) TableVal}
    (hstep : (threadSys N H τ).step l w.pool = some pool) {n : Nat} {o : OsThread H}
    (hn : pool.view.shared.osThread n = some o) (hjoined : o.status = .joined) :
    w.shared.osThread n = some o ∨ w.phase n = .returned := by
  cases l with
  | call t c =>
      obtain ⟨-, rfl⟩ := Sys.step_call hstep
      exact Or.inl hn
  | ret t =>
      obtain ⟨id, c, a, -, -, rfl⟩ := Sys.step_ret hstep
      exact Or.inl hn
  | prim t x =>
      obtain ⟨id, c, p, k, r, s, -, hp, hexec, rfl⟩ := Sys.step_prim hstep
      rcases exec_os hexec with ⟨hos, -⟩ | ⟨o₁, -, hjoinable, rfl⟩ | ⟨h, rfl, rfl, rfl⟩ |
        ⟨h, -, rfl⟩
      · refine Or.inl ?_
        unfold ThreadState.osThread at hn ⊢
        rw [← hn]
        exact congrArg (fun os => (List.reverse os)[n]?) hos.symm
      · rcases ThreadState.osThread_of_spawn hn with hn' | rfl
        · exact Or.inl hn'
        · rw [hjoinable] at hjoined
          cases hjoined
      · have hreturned : w.returned h = true := by
          simpa [World.awaited, hp] using hawaited
        rcases ThreadState.osThread_of_reap hn with hn' | ⟨-, o₁, ho₁, hhandle, hjoinable⟩
        · exact Or.inl hn'
        · exact Or.inr (returned_of_awaited hreturned ho₁ hhandle hjoinable)
      · rcases ThreadState.osThread_of_reap hn with hn' | ⟨hdetached, -⟩
        · exact Or.inl hn'
        · rw [hdetached] at hjoined
          cases hjoined

/-- Only `pthread_join` makes a thread joined, and it waits for the thread to return. -/
theorem returned_of_joined {ok : World N H τ → WorldLabel H τ → Prop} {w : World N H τ}
    (h : World.Reach ok .zero w) : ∀ n o, w.shared.osThread n = some o → o.status = .joined →
      w.phase n = .returned := by
  induction h with
  | start =>
      intro n o hn
      simp [World.shared, World.start, Sys.start, ThreadState.osThread, ThreadState.zero] at hn
  | @step w w' _ l _ hstep ih =>
      intro n o hn hjoined
      cases l with
      | api l =>
          obtain ⟨hawaited, pool, hpool, rfl⟩ := World.step_api hstep
          rcases joined_api hawaited hpool hn hjoined with hn' | hreturned
          · exact ih n o hn' hjoined
          · exact hreturned
      | start m =>
          obtain ⟨-, hready, rfl⟩ := World.step_start hstep
          have hreturned := ih n o hn hjoined
          have hne : n ≠ m := by
            rintro rfl
            rw [hready] at hreturned
            cases hreturned
          simpa [hne] using hreturned
      | work m =>
          obtain ⟨-, rfl⟩ := World.step_work hstep
          exact ih n o hn hjoined
      | finish m =>
          obtain ⟨-, rfl⟩ := World.step_finish hstep
          by_cases hm : n = m
          · simp [hm]
          · simpa [hm] using ih n o hn hjoined

/-! ### What the API says of a thread -/

omit [DecidableEq τ] in
theorem exec_readState {s : ThreadState N H} {a : Addr} {st : TtThreadState}
    (hst : stateOf s a = some st) (t : τ) (x : ThreadChoice H) :
    (threadMachine N H τ).exec x t (.inl (.readState a)) s = some (st, s) := by
  obtain ⟨r, hr, rfl⟩ := Option.map_eq_some_iff.mp hst
  show readExec x a TtThread.state s = _
  unfold readExec
  rw [hr]

instance : Nonempty (ThreadChoice H) := ⟨.ok⟩

omit [DecidableEq τ] in
theorem reports_iff {w : World N H τ} {t : τ} {v a : Addr} {st : TtThreadState}
    (hst : stateOf w.shared a = some st) : Reports w t v a ↔ Fits st (w.phaseOf a) := by
  unfold Reports ttThreadGetState
  rw [Machine.answers_step_det (exec_readState hst t)]
  refine ⟨?_, fun hfits => ⟨st, rfl, hfits⟩⟩
  rintro ⟨st', heq, hfits⟩
  cases heq
  exact hfits

/-- `tt_platform_thread_destroy` past the check of the state. -/
def destroyTerminated (a : Addr) : Prog (threadSig H) TtError :=
  .step (.inr (.unregister (some a))) fun (result : TtError) =>
  if result ≠ .success then .ret result else
  .step (.inl (.readIsActive a)) fun (isActive : Bool) =>
  if isActive then
    .step (.inl (.readHandle a)) fun (handle : Option H) =>
    .step (.inl (.pthreadDetach handle)) fun (ok : Bool) =>
    if !ok then .ret .threadDetach else
    .step (.inl (.write a (.isActive false))) fun _ =>
    .step (.inl (.free a)) fun _ => .ret .success
  else
    .step (.inl (.free a)) fun _ => .ret .success

omit [DecidableEq H] in
theorem ttThreadDestroy_eq (a : Addr) : (ttThreadDestroy (some a) : Prog (threadSig H) TtError) =
    .step (.inl (.readState a)) fun (state : TtThreadState) =>
      if state ≠ .terminated then .ret .threadActive else destroyTerminated a := rfl

omit [DecidableEq τ] in
/-- Past the check of the state, a destroy does not call the thread active. -/
theorem leads_destroyTerminated (t : τ) (a : Addr) :
    (threadMachine N H τ).Leads t (· ≠ .threadActive) (destroyTerminated a) := by
  intro x s result s' hexec
  cases hexec
  rcases s.table.unregister_cases a with ⟨i, -, hunregister⟩ | ⟨-, hunregister⟩
  · rw [hunregister]
    intro _ _ isActive _ _
    cases isActive with
    | false => exact fun _ _ _ _ _ => nofun
    | true =>
        intro _ _ handle _ _ _ _ ok _ _
        cases ok with
        | false => exact nofun
        | true => exact fun _ _ _ _ _ _ _ _ _ _ => nofun
  · rw [hunregister]
    exact nofun

omit [DecidableEq τ] in
theorem refuses_iff {w : World N H τ} {t : τ} {a : Addr} {st : TtThreadState}
    (hst : stateOf w.shared a = some st) :
    Refuses w t a ↔ (st = .terminated ↔ w.phaseOf a = some .returned) := by
  unfold Refuses
  rw [ttThreadDestroy_eq, Machine.answers_step_det (exec_readState hst t)]
  by_cases hterminated : st = .terminated
  · rw [if_neg (not_not_intro hterminated)]
    refine ⟨fun h => ?_, fun h => ?_⟩
    · -- One of the ways on: the table is empty by the time the record is looked for.
      have hnone : ((Table.zero N).unregister (some a)).1 = .notFound := by
        rcases (Table.zero N).unregister_cases a with ⟨i, hi, -⟩ | ⟨-, hunregister⟩
        · cases hi
        · rw [hunregister]
      have hrest := h .ok .zero _ _ rfl
      rw [show (ThreadState.zero : ThreadState N H).table = .zero N from rfl, hnone] at hrest
      have hreturned : ¬ w.phaseOf a ≠ some .returned := fun hne => TtError.noConfusion (hrest.mpr hne)
      exact iff_of_true hterminated (not_not.mp hreturned)
    · refine (leads_destroyTerminated t a).mono fun e he => ?_
      exact iff_of_false he (not_not_intro (h.mp hterminated))
  · rw [if_pos hterminated]
    refine ⟨fun h => iff_of_false hterminated (h.mp rfl), fun h => ?_⟩
    exact iff_of_true rfl fun hreturned => hterminated (h.mpr hreturned)

/-- In a run of clients that keep their promise, the records tell of their threads. -/
theorem tells_of_reach {t₀ : τ} {s₀ : ThreadState N H} {es : List (threadSig H).Done}
    (hinit : (threadMachine N H τ).Run t₀ ttThreadInit .zero es .success s₀)
    {ok : World N H τ → WorldLabel H τ → Prop} (hok : ∀ w l, ok w l → Promised w l)
    {w : World N H τ} (h : World.Reach ok s₀ w) (hstale : ¬ Stale w.pool.view.trace) :
    s₀ = .zero ∧ (∃ G, Thread.Inv w.pool.view G) ∧
      (∀ a, ThreadLife.Known w.pool.view a → Tells w.pool.view a) ∧ ∀ a, Lists w.pool.view a := by
  have hpool : (threadSys N H τ).Reach Owned s₀ w.pool := h.pool fun w l hl => hok w (.api l) hl
  obtain ⟨G, hinv, htells, hlists⟩ := extra_of_reach hinit hpool hstale
  exact ⟨Thread.init_zero hinit, ⟨G, hinv⟩, htells, hlists⟩

/-! ### Threads that are due -/

/-- A thread that has been made for the record at `a` and registered. -/
def Due (v : ThreadView N H τ) (n : Nat) (o : OsThread H) : Prop :=
  v.shared.threadOf o.record = some n ∧ registered v.trace o.record = true

omit [DecidableEq H] [DecidableEq τ] in
theorem due_iff {v : ThreadView N H τ} {n : Nat} {o : OsThread H}
    (hn : v.shared.osThread n = some o) : due v n = true ↔ Due v n o := by
  unfold due Due
  rw [hn]
  simp

omit [DecidableEq H] [DecidableEq τ] in
/-- A thread that is due is in the table until it is joined. -/
theorem Due.inTable {v : ThreadView N H τ} {n : Nat} {o : OsThread H} (h : Due v n o)
    (hn : v.shared.osThread n = some o) (hlists : Lists v o.record) (hlive : o.status ≠ .joined) :
    InTable v.shared o.record := by
  refine (hlists.listed h.2).resolve_left ?_
  rintro ⟨o', ho', hjoined⟩
  have heq := (ThreadState.osThread_threadOf h.1).symm.trans hn
  rw [ho'] at heq
  cases heq
  exact hlive hjoined

omit [DecidableEq H] [DecidableEq τ] in
/-- Nothing but `pthread_create` makes a registered record one that is not. -/
theorem registered_prim {tr : List (Thread.ThreadEvent H τ)} {id : Nat} {t : τ}
    {p : (threadSig H).Op} {r : (threadSig H).Res p} {a : Addr}
    (hp : ∀ stackSize func arg, (⟨p, r⟩ : (threadSig H).Done) ≠
      ⟨.inl (.pthreadCreate a stackSize func arg), true⟩) (h : registered tr a = true) :
    registered (tr ++ [.prim id t p r]) a = true := by
  rw [registered_snoc, h]
  rcases p with p | p
  · cases p with
    | pthreadCreate b stackSize func arg =>
        refine if_neg fun hand => ?_
        obtain ⟨rfl, rfl⟩ := hand
        exact hp stackSize func arg rfl
    | _ => rfl
  · cases p with
    | register thread => simp [registeredStep]
    | _ => rfl

omit [DecidableEq τ] in
/-- A primitive leaves a thread its number and its record, and does not undo a join. -/
theorem exec_osThread {t : τ} {x : ThreadChoice H} {p : (threadSig H).Op} {s s' : ThreadState N H}
    {r : (threadSig H).Res p} (hexec : (threadMachine N H τ).exec x t p s = some (r, s')) {n : Nat}
    {o : OsThread H} (hn : s.osThread n = some o) :
    ∃ o', s'.osThread n = some o' ∧ o'.record = o.record ∧
      (o.status = .joined → o'.status = .joined) := by
  have hreap : ∀ h status, ∃ o', (s.reap h status).osThread n = some o' ∧ o'.record = o.record ∧
      (o.status = .joined → o'.status = .joined) := by
    intro h status
    have hafter := ThreadState.osThread_reap s h status n
    rw [hn, Option.map_some] at hafter
    refine ⟨_, hafter, ?_, ?_⟩
    · split <;> rfl
    · intro hjoined
      rw [if_neg (by rw [hjoined]; exact nofun)]
      exact hjoined
  rcases exec_os hexec with ⟨hos, -⟩ | ⟨o₁, -, -, rfl⟩ | ⟨h, -, -, rfl⟩ | ⟨h, -, rfl⟩
  · refine ⟨o, ?_, rfl, fun hjoined => hjoined⟩
    unfold ThreadState.osThread
    rw [hos]
    exact hn
  · refine ⟨o, ?_, rfl, fun hjoined => hjoined⟩
    rw [ThreadState.osThread_spawn_of_lt (ThreadState.osThread_lt hn)]
    exact hn
  · exact hreap h .joined
  · exact hreap h .detached

omit [DecidableEq τ] in
/-- Only `pthread_create` gives a record another thread. -/
theorem exec_threadOf {t : τ} {x : ThreadChoice H} {p : (threadSig H).Op} {s s' : ThreadState N H}
    {r : (threadSig H).Res p} (hexec : (threadMachine N H τ).exec x t p s = some (r, s')) {a : Addr}
    (hp : ∀ stackSize func arg, (⟨p, r⟩ : (threadSig H).Done) ≠
      ⟨.inl (.pthreadCreate a stackSize func arg), true⟩) : s'.threadOf a = s.threadOf a := by
  rcases exec_os hexec with ⟨hos, -⟩ | ⟨o, hdone, -, rfl⟩ | ⟨h, -, -, rfl⟩ | ⟨h, -, rfl⟩
  · unfold ThreadState.threadOf
    rw [hos]
  · refine ThreadState.threadOf_spawn_of_ne ?_
    rintro rfl
    exact hp _ _ _ hdone
  · exact ThreadState.threadOf_reap _ _ _ _
  · exact ThreadState.threadOf_reap _ _ _ _

/-- A thread that is due stays so as long as it is not joined. -/
theorem Due.api {w : World N H τ} {l : Label τ (ThreadChoice H) (ThreadCall H)}
    {pool : Pool (threadSig H) τ (ThreadState N H) (ThreadCall H) TableVal}
    (hstep : (threadSys N H τ).step l w.pool = some pool)
    (hlists : ∀ a, Lists w.pool.view a) (hlists' : ∀ a, Lists pool.view a) {n : Nat}
    {o o' : OsThread H} (hn : w.shared.osThread n = some o)
    (hn' : pool.view.shared.osThread n = some o') (hlive : o'.status ≠ .joined)
    (h : o.status = .joined ∨ Due w.pool.view n o) : Due pool.view n o' := by
  cases l with
  | call t c =>
      obtain ⟨-, rfl⟩ := Sys.step_call hstep
      have heq := hn.symm.trans hn'
      cases heq
      obtain ⟨hthread, hregistered⟩ := h.resolve_left hlive
      refine ⟨hthread, ?_⟩
      rw [View.call_trace, registered_snoc]
      exact hregistered
  | ret t =>
      obtain ⟨id, c, a, -, -, rfl⟩ := Sys.step_ret hstep
      have heq := hn.symm.trans hn'
      cases heq
      obtain ⟨hthread, hregistered⟩ := h.resolve_left hlive
      refine ⟨hthread, ?_⟩
      rw [View.ret_trace, registered_snoc]
      exact hregistered
  | prim t x =>
      obtain ⟨id, c, p, k, r, s, -, -, hexec, rfl⟩ := Sys.step_prim hstep
      obtain ⟨o₁, ho₁, hrecord, hjoined⟩ := exec_osThread hexec hn
      have heq := ho₁.symm.trans hn'
      cases heq
      have hlive' : o.status ≠ .joined := fun hstatus => hlive (hjoined hstatus)
      have hdue := h.resolve_left hlive'
      have hp : ∀ stackSize func arg, (⟨p, r⟩ : (threadSig H).Done) ≠
          ⟨.inl (.pthreadCreate o.record stackSize func arg), true⟩ := by
        intro stackSize func arg hdone
        cases hdone
        -- The record is in the table, so nobody is making it.
        have hin : InTable w.shared o.record := hdue.inTable hn (hlists _) hlive'
        rcases threadOpExec_pthreadCreate hexec with ⟨hfalse, -⟩ | ⟨h, -, -, rfl⟩
        · cases hfalse
        · have hregistered := (hlists' o.record).registered hin
          rw [View.prim_trace, registered_snoc] at hregistered
          exact Bool.false_ne_true ((if_pos ⟨rfl, rfl⟩).symm.trans hregistered)
      unfold Due
      rw [hrecord]
      exact ⟨(exec_threadOf hexec hp).trans hdue.1, registered_prim hp hdue.2⟩

/-- Threads are never taken off the list. -/
theorem length_api {w : World N H τ} {l : Label τ (ThreadChoice H) (ThreadCall H)}
    {pool : Pool (threadSig H) τ (ThreadState N H) (ThreadCall H) TableVal}
    (hstep : (threadSys N H τ).step l w.pool = some pool) :
    w.shared.os.length ≤ pool.view.shared.os.length := by
  cases l with
  | call t c =>
      obtain ⟨-, rfl⟩ := Sys.step_call hstep
      exact Nat.le_refl _
  | ret t =>
      obtain ⟨id, c, a, -, -, rfl⟩ := Sys.step_ret hstep
      exact Nat.le_refl _
  | prim t x =>
      obtain ⟨id, c, p, k, r, s, -, -, hexec, rfl⟩ := Sys.step_prim hstep
      rcases exec_os hexec with ⟨hos, -⟩ | ⟨o, -, -, rfl⟩ | ⟨h, -, -, rfl⟩ | ⟨h, -, rfl⟩
      · exact Nat.le_of_eq (congrArg List.length hos).symm
      · exact Nat.le_succ _
      · exact Nat.le_of_eq (List.length_map _).symm
      · exact Nat.le_of_eq (List.length_map _).symm

/-- Only threads that have been made have been started. -/
theorem lt_of_started {ok : World N H τ → WorldLabel H τ → Prop} {s₀ : ThreadState N H}
    {w : World N H τ} (h : World.Reach ok s₀ w) :
    ∀ n, w.phase n ≠ .ready → n < w.shared.os.length := by
  induction h with
  | start => exact fun n hn => absurd rfl hn
  | @step w w' _ l _ hstep ih =>
      intro n hn
      cases l with
      | api l =>
          obtain ⟨-, pool, hpool, rfl⟩ := World.step_api hstep
          exact Nat.lt_of_lt_of_le (ih n hn) (length_api hpool)
      | start m =>
          obtain ⟨hlt, -, rfl⟩ := World.step_start hstep
          by_cases hm : n = m
          · rw [hm]
            exact hlt
          · exact ih n (by simpa [hm] using hn)
      | work m =>
          obtain ⟨-, rfl⟩ := World.step_work hstep
          exact ih n hn
      | finish m =>
          obtain ⟨hrunning, rfl⟩ := World.step_finish hstep
          by_cases hm : n = m
          · rw [hm]
            exact ih m (by rw [hrunning]; exact nofun)
          · exact ih n (by simpa [hm] using hn)

/-- Where the OS starts threads only when they are due, those it has started were and are. -/
theorem due_of_reach {t₀ : τ} {s₀ : ThreadState N H} {es : List (threadSig H).Done}
    (hinit : (threadMachine N H τ).Run t₀ ttThreadInit .zero es .success s₀)
    {w : World N H τ} (h : World.Reach Timely s₀ w) (hstale : ¬ Stale w.pool.view.trace) :
    ∀ n o, w.shared.osThread n = some o → w.phase n ≠ .ready →
      o.status = .joined ∨ Due w.pool.view n o := by
  induction h with
  | start => exact fun n o _ hn => absurd rfl hn
  | @step w w' h l hok hstep ih =>
      intro n o hn hstarted
      have hreach := h.step l hok hstep
      cases l with
      | api l =>
          obtain ⟨-, pool, hpool, rfl⟩ := World.step_api hstep
          obtain ⟨e, he⟩ := Sys.step_trace hpool
          have hstale' : ¬ Stale w.pool.view.trace := by
            intro hs
            refine hstale ?_
            rw [he]
            exact stale_snoc _ e hs
          obtain ⟨-, -, -, hlists⟩ := tells_of_reach hinit timely_promised h hstale'
          obtain ⟨-, -, -, hlists'⟩ := tells_of_reach hinit timely_promised hreach hstale
          obtain ⟨o₁, ho₁⟩ : ∃ o₁, w.shared.osThread n = some o₁ := by
            have hlt : n < w.shared.os.reverse.length := by
              simpa using lt_of_started h n hstarted
            exact ⟨_, List.getElem?_eq_getElem hlt⟩
          by_cases hjoined : o.status = .joined
          · exact Or.inl hjoined
          · exact Or.inr (Due.api hpool hlists hlists' ho₁ hn hjoined
              (ih hstale' n o₁ ho₁ hstarted))
      | start m =>
          obtain ⟨-, -, rfl⟩ := World.step_start hstep
          by_cases hm : n = m
          · subst hm
            exact Or.inr ((due_iff hn).mp hok)
          · exact ih hstale n o hn (by simpa [hm] using hstarted)
      | work m =>
          obtain ⟨-, rfl⟩ := World.step_work hstep
          exact ih hstale n o hn hstarted
      | finish m =>
          obtain ⟨hrunning, rfl⟩ := World.step_finish hstep
          by_cases hm : n = m
          · subst hm
            exact ih hstale n o hn (by rw [hrunning]; exact nofun)
          · exact ih hstale n o hn (by simpa [hm] using hstarted)

/-- The record of thread `o` is in the table, with the handle of `o` in it. -/
def Registered (s : ThreadState N H) (o : OsThread H) : Prop :=
  InTable s o.record ∧ s.handleOf o.record = some o.handle

/-- Thread 0 creates a thread, and comes to `steps` steps after `pthread_create`. -/
def creating (steps : Nat) : List (WorldLabel Nat Nat) :=
  (.call 0 (.create (some 1) none (some 7) none) ::
    (createChoices 10 20 steps).map (.prim 0)).map .api

/-- It creates one, which runs its function to the end. -/
def finishing : List (WorldLabel Nat Nat) := creating 3 ++ [.api (.ret 0), .start 0, .finish 0]

/-- The thread is then joined. -/
def joining : List (WorldLabel Nat Nat) :=
  finishing ++ (.call 0 (.join (some 10)) :: List.replicate 4 (.prim 0 .ok)).map .api

end Running

open Running ThreadLife in
/--
**When the API knows of a thread.**  After one `tt_thread_init`, in every interleaving of
clients that keep their promise with the threads they have started, and as long as no join
stores a state in a record freed since the join began: for a record that was handed out
and has not been freed, `tt_thread_get_state` yields a state that fits its thread exactly
when the thread has not been started or a join has stored its state, and
`tt_thread_destroy` calls it active exactly when it has not returned, unless the thread
has returned and no join has stored its state.
-/
theorem ttThreadState_follows_iff {N : Nat} {H τ : Type} [DecidableEq H] [DecidableEq τ] {t₀ : τ}
    {s₀ : ThreadState N H} {es : List (threadSig H).Done}
    (hinit : (threadMachine N H τ).Run t₀ ttThreadInit .zero es .success s₀) {w : World N H τ}
    (h : World.Reach Promised s₀ w) (hstale : ¬ Stale w.pool.view.trace) {a : Addr}
    (ha : Thread.ledger w.pool.view.trace a ≠ .unknown) (t : τ) (v : Addr) :
    (Reports w t v a ↔ w.phaseOf a = some .ready ∨ settled w.pool.view.trace a = true) ∧
      (Refuses w t a ↔
        w.phaseOf a ≠ some .returned ∨ settled w.pool.view.trace a = true) := by
  obtain ⟨rfl, -, htells, -⟩ := tells_of_reach hinit (fun _ _ hl => hl) h hstale
  rcases (htells a ha).state with ⟨hstate, hsettled⟩ | ⟨hstate, hsettled, hjoined⟩
  · rw [reports_iff hstate, refuses_iff hstate, hsettled]
    refine ⟨⟨fun hfits => Or.inl (hfits.created rfl), fun hready => ?_⟩, ?_⟩
    · have hphase := hready.resolve_right Bool.false_ne_true
      refine ⟨fun _ => hphase, nofun, ?_⟩
      rw [hphase]
      exact iff_of_false nofun nofun
    · refine ⟨fun hiff => Or.inl fun hreturned => ?_, fun hne => ?_⟩
      · cases hiff.mpr hreturned
      · exact iff_of_false nofun (hne.resolve_right Bool.false_ne_true)
  · obtain ⟨o, ho, hstatus⟩ := hjoined
    obtain ⟨n, hn⟩ := ThreadState.threadOf_isSome ho
    have hosThread : w.shared.osThread n = some o := (ThreadState.osThread_threadOf hn).trans ho
    have hphase : w.phaseOf a = some .returned := by
      have hreturned := returned_of_joined h n o hosThread hstatus
      unfold World.phaseOf
      rw [show w.shared.threadOf a = some n from hn, Option.map_some, hreturned]
    rw [reports_iff hstate, refuses_iff hstate, hsettled]
    refine ⟨iff_of_true ⟨nofun, nofun, iff_of_true rfl hphase⟩ (Or.inr rfl), ?_⟩
    exact iff_of_true (iff_of_true rfl hphase) (Or.inr rfl)

open Running ThreadLife in
/-- A thread that has been joined. -/
theorem ttThreadState_follows_joined :
    ∃ w : World 1 Nat Nat, w.phaseOf 10 = some .returned ∧ Reports w 0 1 10 ∧ Refuses w 0 10 := by
  have hinit : (threadMachine 1 Nat Nat).Run 0 ttThreadInit .zero [⟨.inr .init, .success⟩] .success
      .zero := Machine.run_of_eval [.ok] rfl
  have hrun : (World.run Promised joining (World.start .zero : World 1 Nat Nat)).isSome = true := rfl
  have hiff := ttThreadState_follows_iff hinit
    (World.Reach.run _ .start (Option.some_get hrun).symm) (not_stale rfl) (a := 10) nofun 0 1
  exact ⟨_, rfl, hiff.1.mpr (Or.inr rfl), hiff.2.mpr (Or.inr rfl)⟩

open Running in
/-- **A thread runs and returns, and is called created and active all the time.** -/
theorem ttThreadState_lags :
    ∃ w w' : World 1 Nat Nat,
      (threadMachine 1 Nat Nat).Run 0 ttThreadInit .zero [⟨.inr .init, .success⟩] .success .zero ∧
      (World.Reach Promised .zero w ∧ Thread.ledger w.pool.view.trace 10 = .handed ∧
        w.phaseOf 10 = some .running ∧ ThreadLife.stateOf w.shared 10 = some .created ∧
          ¬ Reports w 0 1 10) ∧
      World.Reach Promised .zero w' ∧ Thread.ledger w'.pool.view.trace 10 = .handed ∧
        Thread.InTable w'.shared 10 ∧ w'.phaseOf 10 = some .returned ∧ ¬ Reports w' 0 1 10 ∧
        ¬ Refuses w' 0 10 := by
  have hrun : (World.run Promised (creating 3 ++ [.api (.ret 0), .start 0])
      (World.start .zero : World 1 Nat Nat)).isSome = true := rfl
  have hrun' : (World.run Promised finishing (World.start .zero : World 1 Nat Nat)).isSome = true :=
    rfl
  refine ⟨_, _, Machine.run_of_eval [.ok] rfl,
    ⟨World.Reach.run _ .start (Option.some_get hrun).symm, rfl, rfl, rfl, ?_⟩,
    World.Reach.run _ .start (Option.some_get hrun').symm, rfl, ⟨0, rfl⟩, rfl, ?_, ?_⟩
  · intro hreports
    have hfits : Fits .created (some .running) := (reports_iff rfl).mp hreports
    cases hfits.created rfl
  · intro hreports
    have hfits : Fits .created (some .returned) := (reports_iff rfl).mp hreports
    cases hfits.created rfl
  · intro hrefuses
    have hiff : TtThreadState.created = .terminated ↔ some RunPhase.returned = some .returned :=
      (refuses_iff rfl).mp hrefuses
    cases hiff.mpr rfl

open Running ThreadLife in
/--
**A running thread is registered, if it is not started too early.**  After one
`tt_thread_init`, in every run in which the OS starts a thread only once its creator has
had `TT_SUCCESS` from `tt_thread_table_register`, and as long as no join stores a state in
a record freed since the join began: the record of a thread that is running and has not
been joined is in a slot in use, with the thread's handle.
-/
theorem ttThread_runs_registered {N : Nat} {H τ : Type} [DecidableEq H] [DecidableEq τ] {t₀ : τ}
    {s₀ : ThreadState N H} {es : List (threadSig H).Done}
    (hinit : (threadMachine N H τ).Run t₀ ttThreadInit .zero es .success s₀) {w : World N H τ}
    (h : World.Reach Timely s₀ w) (hstale : ¬ Stale w.pool.view.trace) {n : Nat} {o : OsThread H}
    (hn : w.shared.osThread n = some o) (hrunning : w.phase n = .running)
    (hlive : o.status ≠ .joined) : Registered w.shared o := by
  obtain ⟨-, ⟨G, hinv⟩, -, hlists⟩ := tells_of_reach hinit timely_promised h hstale
  have hdue : Due w.pool.view n o :=
    (due_of_reach hinit h hstale n o hn (by rw [hrunning]; exact nofun)).resolve_left hlive
  have hin := hdue.inTable hn (hlists _) hlive
  obtain ⟨o', ho', hhandle⟩ := stored_iff.mp (hin.stored hinv.sound)
  have heq := (ThreadState.osThread_threadOf hdue.1).symm.trans hn
  rw [ho'] at heq
  cases heq
  exact ⟨hin, hhandle⟩

open Running ThreadLife in
/-- A thread that is started after it has been registered. -/
theorem ttThread_runs_registered_due :
    ∃ w : World 1 Nat Nat, ∃ o, w.shared.osThread 0 = some o ∧ w.phase 0 = .running ∧
      Registered w.shared o := by
  have hinit : (threadMachine 1 Nat Nat).Run 0 ttThreadInit .zero [⟨.inr .init, .success⟩] .success
      .zero := Machine.run_of_eval [.ok] rfl
  have hrun : (World.run Timely (creating 3 ++ [.start 0])
      (World.start .zero : World 1 Nat Nat)).isSome = true := rfl
  exact ⟨_, _, rfl, rfl, ttThread_runs_registered hinit
    (World.Reach.run _ .start (Option.some_get hrun).symm) (not_stale rfl) (n := 0) rfl rfl nofun⟩

open Running in
/-- **A thread that is started straight away does not find itself in the table.** -/
theorem ttThread_runs_unregistered :
    ∃ w : World 1 Nat Nat, ∃ o,
      (threadMachine 1 Nat Nat).Run 0 ttThreadInit .zero [⟨.inr .init, .success⟩] .success .zero ∧
      World.Reach Promised .zero w ∧ w.shared.osThread 0 = some o ∧ w.phase 0 = .running ∧
      o.status ≠ .joined ∧ ¬ Registered w.shared o ∧
      w.shared.table.findByHandle w.shared.handleOf (some o.handle) = none := by
  have hrun : (World.run Promised (creating 0 ++ [.start 0])
      (World.start .zero : World 1 Nat Nat)).isSome = true := rfl
  refine ⟨_, _, Machine.run_of_eval [.ok] rfl,
    World.Reach.run _ .start (Option.some_get hrun).symm, rfl, rfl, nofun, ?_, rfl⟩
  rintro ⟨⟨i, hi⟩, -⟩
  match i with
  | 0 => cases hi

end TinyTools
