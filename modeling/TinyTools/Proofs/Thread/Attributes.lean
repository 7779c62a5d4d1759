/-
Do the records describe their threads?

A record has the priority and the stack size of its thread, and so has the OS.
`tt_thread_create` fills in the record from the attributes it was given, but of these
`tt_platform_thread_create` tells the OS only the stack size, and only if it is not 0:
the thread gets a priority that nobody has asked for, and with the default attributes
or a stack size of 0 the stack size that is the default of the OS.
`tt_platform_thread_set_priority` writes both copies, whether the OS takes the new
priority or not.

The two agree as long as every call happens to find them equal.  What carries this is
that handles tell the threads apart, so that a call on one thread leaves the others be.
-/
import TinyTools.Proofs.Thread.SetPriority

namespace TinyTools

open Interleave

namespace ThreadAttributes

open ThreadUsage ThreadMapping ThreadPriority
open ThreadCreate (askedStack newRecord newThread started handed)
open Thread (Apart apart_spawn apart_startedFor)

variable {N : Nat} {H τ : Type}

/-! ### What is to be shown -/

/-- What the OS has on a thread, `os`, is what `r` says. -/
structure Describes (cfg : SchedConfig) (r : TtThread H) (os : OsSched) : Prop where
  priority : os.priority = mapped cfg r.priority
  stackSize : os.stackSize = r.stackSize

/-- Every record in the table describes its thread, unless that has ended. -/
def Described (cfg : SchedConfig) (s : SchedState N H) : Prop :=
  ∀ i a, s.threads.table.holds a i = true → ∃ r o, s.threads.mem a = some r ∧
    s.threads.startedFor a = some o ∧
    ((s.sched o.handle).ended = false → Describes cfg r (s.sched o.handle))

/-- A new thread gets what its record says without being asked: the priority that it inherits is
the one for its level, and its stack size is the one in the record. -/
def Inherits (cfg : SchedConfig) (s : SchedState N H) (attr : Option TtThreadAttr) : Prop :=
  s.inherited = mapped cfg (attr.elim .normal (·.priority)) ∧
    (askedStack attr).getD cfg.defaultStackSize = attr.elim ttDefaultStackSize (·.stackSize)

/-- The OS refuses to set the priority of a thread that has ended or has it already. -/
def Idle (cfg : SchedConfig) (s : SchedState N H) (a : Addr) (priority : Int)
    (es : List (schedSig H).Done) : Prop :=
  ¬ OsCallSucceeds es ∧ ∃ level o, TtThreadPriority.ofInt priority = some level ∧
    s.threads.startedFor a = some o ∧
    ((s.sched o.handle).ended = true ∨ (s.sched o.handle).priority = mapped cfg level)

/-- A `tt_thread_create` starts no thread that gets registered, or one that inherits what its
record says; a `tt_thread_set_priority` is as it should be, or does nothing. -/
def Careful (cfg : SchedConfig) (s : SchedState N H) (e : SchedEntry H τ) : Prop :=
  match e.call with
  | .threadCall .init => True
  | .threadCall (.create thread attr func _) =>
      thread = none ∨ func = none ∨ ThreadCreate.Refused (Machine.seconds e.done) ∨
        (∀ i, (s.threads.table i).inUse = true) ∨ Inherits cfg s attr
  | .setPriority none _ => True
  | .setPriority (some a) priority =>
      Meets cfg s a priority e.done ∨ Idle cfg s a priority e.done
  | .threadCall _ => False

/-- The clients create threads and set priorities, carefully, and pass their own records. -/
def CarefulOwn (cfg : SchedConfig) (L : List (SchedEntry H τ)) (s : SchedState N H)
    (e : SchedEntry H τ) : Prop :=
  Own L s e ∧ Careful cfg s e

/-! ### The invariant -/

/-- The records of the clients describe their threads, which nobody has joined. -/
structure Inv (cfg : SchedConfig) (mine : Addr → Bool) (s : SchedState N H) : Prop where
  kept : Kept mine s.threads
  joinable : ∀ o ∈ s.threads.os, o.status = .joinable
  apart : s.threads.os.Pairwise Apart
  describes : ∀ a r o, mine a = true → s.threads.mem a = some r →
    s.threads.startedFor a = some o → (s.sched o.handle).ended = false →
    Describes cfg r (s.sched o.handle)

section Inv

variable {cfg : SchedConfig} {mine : Addr → Bool} {s s' : SchedState N H}

theorem Inv.described (h : Inv cfg mine s) : Described cfg s := by
  intro i a hi
  have ha := h.kept.own hi
  obtain ⟨r, o, hr, ho, -⟩ := h.kept.sound a ha
  exact ⟨r, o, hr, ho, h.describes a r o ha hr ho⟩

/-- The threads of two records have different handles. -/
theorem Inv.handle_ne (h : Inv cfg mine s) {a b : Addr} (hab : a ≠ b) {o o' : OsThread H}
    (ho : s.threads.startedFor a = some o) (ho' : s.threads.startedFor b = some o') :
    o.handle ≠ o'.handle := by
  have hlive : ∀ c o, s.threads.startedFor c = some o → o.status ≠ .joined := by
    intro c o ho hjoined
    rw [h.joinable o (List.mem_of_find?_eq_some ho)] at hjoined
    cases hjoined
  exact apart_startedFor h.apart hab ho ho' (hlive a o ho) (hlive b o' ho')

/-- What happens outside of the calls. -/
theorem Inv.outside [DecidableEq H] (h : Inv cfg mine s) (henv : Outside s s') :
    Inv cfg mine s' := by
  cases henv with
  | ends h' =>
      refine ⟨h.kept, h.joinable, h.apart, ?_⟩
      intro a r o ha hr ho hended
      by_cases heq : o.handle = h'
      · subst heq
        simp at hended
      · simp only [Function.update_of_ne heq] at hended ⊢
        exact h.describes a r o ha hr ho hended
  | inherits _ => exact ⟨h.kept, h.joinable, h.apart, h.describes⟩

/-- The table is cleared. -/
theorem Inv.clear (h : Inv cfg mine s) : Inv cfg mine { s with threads.table := .zero N } :=
  ⟨h.kept.clear, h.joinable, h.apart, h.describes⟩

section Create

variable [DecidableEq H] {o : OsThread H} {attr : Option TtThreadAttr} {f a : Addr}
  {arg : Option Addr} {handle : H}

/-- A thread with a new handle is one more of the threads. -/
theorem Inv.threads (h : Inv cfg mine s) (attr : Option TtThreadAttr) (f a : Addr)
    (arg : Option Addr) (hfree : s.threads.taken handle = false) :
    (∀ o ∈ newThread attr f arg a handle :: s.threads.os, o.status = .joinable) ∧
      (newThread attr f arg a handle :: s.threads.os).Pairwise Apart := by
  refine ⟨?_, apart_spawn h.apart hfree⟩
  intro o ho
  rcases List.mem_cons.mp ho with rfl | ho
  · rfl
  · exact h.joinable o ho

/-- The records of the others describe their threads as they did. -/
theorem Inv.describes_other (h : Inv cfg mine s) (hfree : s.threads.taken handle = false)
    {th : ThreadState N H} (hos : th.os = newThread attr f arg a handle :: s.threads.os) {b : Addr}
    (hba : b ≠ a) (hb : mine b = true) {r : TtThread H} (hr : s.threads.mem b = some r)
    (ho : th.startedFor b = some o)
    (hended : (enter cfg s.inherited (core (newThread attr f arg a handle)) s.sched
      o.handle).ended = false) :
    Describes cfg r
      (enter cfg s.inherited (core (newThread attr f arg a handle)) s.sched o.handle) := by
  have hold : s.threads.startedFor b = some o := by
    rw [← ho, ← s.threads.startedFor_spawn_of_ne (o := newThread attr f arg a handle) hba]
    unfold ThreadState.startedFor
    rw [hos]
    rfl
  have hmem := List.mem_of_find?_eq_some hold
  have hsame : enter cfg s.inherited (core (newThread attr f arg a handle)) s.sched o.handle =
      s.sched o.handle := by
    refine Function.update_of_ne ?_ _ _
    intro heq
    have htaken := (List.any_eq_false.mp hfree) o hmem
    rw [h.joinable o hmem] at htaken
    exact htaken (decide_eq_true ⟨heq, OsStatus.noConfusion⟩)
  rw [hsame] at hended ⊢
  exact h.describes b r o hb hr hold hended

/-- A record that is filled in describes its thread, if that inherits what it says. -/
theorem Inv.create {thread func : Option Addr} {es : List (threadSig H).Done} {result : TtError}
    (h : Inv cfg mine s)
    (hout : ThreadCreate.Outcome thread attr func arg s.threads es result s'.threads)
    (hentered : Entered cfg s s')
    (hcareful : thread = none ∨ func = none ∨ ThreadCreate.Refused es ∨
      (∀ i, (s.threads.table i).inUse = true) ∨ Inherits cfg s attr) :
    Inv cfg (fun a => mine a || (handed es).contains a) s' := by
  have hkept := h.kept.create hout
  obtain ⟨th, sched, inherited⟩ := s'
  dsimp only at hout hkept
  cases hout with
  | null =>
      rw [hentered.same rfl]
      refine ⟨hkept, h.joinable, h.apart, ?_⟩
      intro a r o ha
      exact h.describes a r o (by simpa [handed] using ha)
  | refused _ _ hhanded =>
      rw [hentered.same rfl]
      refine ⟨hkept, h.joinable, h.apart, ?_⟩
      intro a r o ha
      exact h.describes a r o (by simpa [hhanded] using ha)
  | @full _ v f a handle _ _ _ hhanded hmem hfree _ =>
      rw [hentered.one rfl]
      obtain ⟨hjoinable, happart⟩ := h.threads attr f a arg hfree
      refine ⟨hkept, hjoinable, happart, ?_⟩
      intro b r o hb hr ho hended
      have hmine : mine b = true := by simpa [hhanded] using hb
      exact h.describes_other hfree rfl (h.kept.ne_of_free hmem hmine) hmine hr ho hended
  | @created _ v f a handle i hthread hfunc hrefused hhanded hmem hfree hslot =>
      rw [hentered.one rfl]
      obtain ⟨hjoinable, happart⟩ := h.threads attr f a arg hfree
      refine ⟨hkept, hjoinable, happart, ?_⟩
      intro b r o hb hr ho hended
      by_cases hba : b = a
      · subst hba
        have hinherits : Inherits cfg s attr := by
          rcases hcareful with hnull | hnull | hrefused' | hfull | hinherits
          · rw [hthread] at hnull
            cases hnull
          · rw [hfunc] at hnull
            cases hnull
          · exact absurd hrefused' hrefused
          · rw [hfull i] at hslot
            cases hslot
          · exact hinherits
        have hrecord := (ThreadState.setMem_mem_self s.threads b _).symm.trans hr
        have hthread' :=
          (s.threads.startedFor_spawn_self (newThread attr f arg b handle)).symm.trans ho
        cases hrecord
        cases hthread'
        have hnew : enter cfg s.inherited (core (newThread attr f arg b handle)) s.sched handle =
            ⟨s.inherited, (askedStack attr).getD cfg.defaultStackSize, false⟩ :=
          Function.update_self ..
        exact ⟨(congrArg OsSched.priority hnew).trans hinherits.1,
          (congrArg OsSched.stackSize hnew).trans hinherits.2⟩
      · have hmine : mine b = true := by
          rw [hhanded] at hb
          simpa [hba] using hb
        have hold : s.threads.mem b = some r := (Function.update_of_ne hba _ _).symm.trans hr
        exact h.describes_other hfree rfl hba hmine hold ho hended

end Create

section SetPriority

variable [DecidableEq H] {a : Addr} {r : TtThread H} {o : OsThread H} {priority : Int}
  {es : List (schedSig H).Done} {result : TtError}

omit [DecidableEq H] in
/-- The record that was written, and its thread. -/
theorem at_record {r r' : TtThread H} {o o' : OsThread H} {th : ThreadState N H}
    (hr' : (th.setMem a (some r)).mem a = some r') (ho : th.startedFor a = some o)
    (ho' : (th.setMem a (some r)).startedFor a = some o') : r' = r ∧ o = o' := by
  rw [ThreadState.setMem_mem_self] at hr'
  exact ⟨(Option.some.inj hr').symm, Option.some.inj (ho.symm.trans ho')⟩

/-- Both copies of the priority change, or the OS's has been what it should be. -/
theorem Inv.setPriority (h : Inv cfg mine s) (ha : mine a = true) (hr : s.threads.mem a = some r)
    (ho : s.threads.startedFor a = some o) (hro : r.handle = some o.handle)
    (hout : ThreadMapping.Outcome cfg a r priority s es result s')
    (hcareful : Meets cfg s a priority es ∨ Idle cfg s a priority es) : Inv cfg mine s' := by
  cases hout with
  | invalid => exact h
  | @set level es₁ handle p ok s₁ hpriority hmapped hcall =>
      have hkept : Kept mine (s.threads.setMem a (some { r with priority := level })) :=
        h.kept.setMem hr rfl fun hst => hst
      refine ⟨hkept, h.joinable, h.apart, ?_⟩
      intro b r' o' hb hr' ho' hended
      rcases hcareful with hmeets | ⟨hfails, level', o₁, hlevel, ho₁, hidle⟩
      · -- the OS has set the priority of the thread of this record
        obtain ⟨rfl, rfl, hh, rfl⟩ := hmeets.called hr hpriority hmapped
        obtain rfl : o.handle = handle := Option.some.inj (hro.symm.trans hh)
        rcases hcall with ⟨hfalse, -⟩ | ⟨-, -, rfl⟩
        · cases hfalse
        by_cases hba : b = a
        · subst hba
          obtain ⟨rfl, rfl⟩ := at_record hr' ho ho'
          have hset : (s.setPriority o.handle (mapped cfg level)).sched o.handle =
              { s.sched o.handle with priority := mapped cfg level } := Function.update_self ..
          have hbefore : (s.sched o.handle).ended = false :=
            (congrArg OsSched.ended hset).symm.trans hended
          exact ⟨congrArg OsSched.priority hset,
            (congrArg OsSched.stackSize hset).trans (h.describes b r o hb hr ho hbefore).stackSize⟩
        · have hold : s.threads.mem b = some r' :=
            (s.threads.setMem_mem_of_ne hba _).symm.trans hr'
          have hother : (s.setPriority o.handle (mapped cfg level)).sched o'.handle =
              s.sched o'.handle := Function.update_of_ne (h.handle_ne hba ho' ho) _ _
          simp only [hother] at hended ⊢
          exact h.describes b r' o' hb hold ho' hended
      · -- the OS has done nothing
        rcases hcall with ⟨-, hsame⟩ | ⟨-, htrue, -⟩
        · obtain rfl := hsame.symm
          by_cases hba : b = a
          · subst hba
            obtain ⟨rfl, rfl⟩ := at_record hr' ho ho'
            rw [ho] at ho₁
            cases ho₁
            rw [hpriority] at hlevel
            cases hlevel
            rcases hidle with hgone | hthere
            · rw [hgone] at hended
              cases hended
            · exact ⟨hthere, (h.describes b r o hb hr ho hended).stackSize⟩
          · have hold : s.threads.mem b = some r' :=
              (s.threads.setMem_mem_of_ne hba _).symm.trans hr'
            exact h.describes b r' o' hb hold ho' hended
        · rw [not_ok hfails] at htrue
          cases htrue

end SetPriority

/-- A call of a careful client. -/
theorem Inv.call [DecidableEq H] {t : τ} {c : SchedCall H} {es : List (schedSig H).Done}
    {v : TableVal} {id : Nat} (h : Inv cfg mine s)
    (hown : ∀ a, c.record = some a → mine a = true)
    (hcareful : Careful cfg s (⟨id, t, c, es, v⟩ : SchedEntry H τ))
    (hrun : (schedMachine cfg N H τ).Run t (schedBody c) s es v s') :
    Inv cfg (fun a => ownedStep a (mine a) (⟨id, t, c, es, v⟩ : SchedEntry H τ)) s' := by
  cases c with
  | threadCall c =>
      cases c with
      | init =>
          rcases run_init hrun with rfl | rfl
          · exact h
          · exact h.clear
      | create thread attr func arg =>
          have hbody := ThreadBody.every_body (H := H) (c := .create thread attr func arg) nofun
          obtain ⟨es₁, rfl, hcreate, hentered⟩ := run_threads hbody hrun
          replace hcreate := (Machine.run_map_iff fun _ _ => rfl).mp hcreate
          obtain ⟨result, rfl, hcreate⟩ := hcreate
          unfold Careful at hcareful
          unfold ownedStep
          rw [Machine.seconds_map] at hcareful ⊢
          exact h.create (ThreadCreate.run_ttThreadCreate hcreate) hentered hcareful
      | join _ => exact hcareful.elim
      | destroy _ => exact hcareful.elim
      | findByHandle _ => exact hcareful.elim
  | setPriority thread priority =>
      replace hrun := (Machine.run_map_iff fun _ _ => rfl).mp hrun
      obtain ⟨result, rfl, hrun⟩ := hrun
      cases thread with
      | none =>
          obtain ⟨-, -, rfl⟩ := Machine.run_ret_iff.mp hrun
          exact h
      | some a =>
          obtain ⟨r, o, hr, ho, hro, -⟩ := h.kept.sound a (hown a rfl)
          exact h.setPriority (hown a rfl) hr ho hro (run_ttThreadSetPriority hr hrun) hcareful

end Inv

end ThreadAttributes

open ThreadUsage ThreadAttributes in
/--
**The records describe their threads, as long as every call finds it so.**  In every
run of calls that create threads and set priorities, made one after the other (no two
overlap) by clients that pass their own records, and in which each thread that is
registered inherits the priority for its level and has the stack size of its record
without being asked, and each priority is set as it should be or has no effect on the OS
and needs none: between the calls, every record in the table whose thread has not ended
has the priority level and the stack size of its thread.
-/
theorem ttThreadAttributes_described {N : Nat} {H τ : Type} [DecidableEq H] {cfg : SchedConfig}
    {L : List (SchedEntry H τ)} {s : SchedState N H}
    (h : Calls (schedSys cfg N H τ) Outside (CarefulOwn cfg) .zero L s) : Described cfg s := by
  refine (Calls.invariant (P := fun L s => Inv cfg (owned L) s) ?_ ?_ ?_ h).described
  · refine ⟨kept_zero, ?_, .nil, ?_⟩
    · intro o ho
      cases ho
    · intro a r o ha
      cases ha
  · intro L s s' hinv henv
    exact hinv.outside henv
  · intro L s s' e hinv he hrun
    have hsnoc : owned (L ++ [e]) = fun a => ownedStep a (owned L a) e := funext (owned_snoc L e)
    rw [hsnoc]
    exact hinv.call he.1 he.2 hrun

open ThreadUsage ThreadMapping ThreadPriority ThreadAttributes in
/-- A thread with the default attributes, where the defaults of the OS are the same, and a
priority that the OS takes. -/
theorem ttThreadAttributes_described_default :
    ∃ (L : List (SchedEntry Nat Unit)) (s : SchedState 1 Nat),
      Calls (schedSys linuxSched 1 Nat Unit) Outside (CarefulOwn linuxSched) .zero L s ∧
      L.map LogEntry.call =
        [.threadCall (.create (some 1) none (some 7) none), .setPriority (some 10) 2] ∧
      s.threads.table.holds 10 0 = true ∧ (s.threads.mem 10).map (·.priority) = some .high ∧
      Described linuxSched s := by
  obtain ⟨es₁, s₁, es₂, s₂, h₁, h₂, hhanded, hhandle, hpoints, hok, hholds, hhigh⟩ :
      ∃ es₁ s₁ es₂ s₂,
      (schedSys linuxSched 1 Nat Unit).Run () ((schedSys linuxSched 1 Nat Unit).body
        (.threadCall (.create (some 1) none (some 7) none))) .zero es₁ (.err .success) s₁ ∧
      (schedSys linuxSched 1 Nat Unit).Run () ((schedSys linuxSched 1 Nat Unit).body
        (.setPriority (some 10) 2)) s₁ es₂ (.err .success) s₂ ∧
      ThreadCreate.handed (Machine.seconds es₁) = [10] ∧ s₁.threads.handleOf 10 = some 20 ∧
      Points es₂ 20 ∧ OsCallSucceeds es₂ ∧ s₂.threads.table.holds 10 0 = true ∧
      (s₂.threads.mem 10).map (·.priority) = some .high :=
    ⟨_, _, _, _, Machine.run_of_eval ((createChoices 10 20 3).map .thread) rfl,
      Machine.run_of_eval (setChoices 20) rfl, rfl, rfl, .tail _ (.tail _ (.tail _ (.head _))),
      ⟨20, 0, .tail _ (.tail _ (.tail _ (.tail _ (.head _))))⟩, rfl, rfl⟩
  have h₀ : Calls (schedSys linuxSched 1 Nat Unit) Outside (CarefulOwn linuxSched) .zero [] .zero :=
    .nil
  have hcreate : CarefulOwn linuxSched [] (.zero : SchedState 1 Nat)
      (⟨0, (), .threadCall (.create (some 1) none (some 7) none), es₁, .err .success⟩ :
        SchedEntry Nat Unit) :=
    ⟨by rintro a ⟨⟩, Or.inr (Or.inr (Or.inr (Or.inr ⟨rfl, rfl⟩)))⟩
  have hmine := (calls_create h₁ (a := 10) (by simp [hhanded])).2
  have hset : CarefulOwn linuxSched
      [⟨0, (), .threadCall (.create (some 1) none (some 7) none), es₁, .err .success⟩] s₁
      (⟨1, (), .setPriority (some 10) 2, es₂, .err .success⟩ : SchedEntry Nat Unit) := by
    refine ⟨?_, Or.inl (Or.inr ⟨.high, 20, rfl, by decide, hhandle, hpoints, hok⟩)⟩
    rintro a ⟨⟩
    exact hmine
  have h := (h₀.call hcreate h₁).call hset h₂
  exact ⟨_, s₂, h, rfl, hholds, hhigh, ttThreadAttributes_described h⟩

open ThreadUsage ThreadAttributes in
/-- **A record that says 0.**  The stack size in the attributes is 0, and the thread has the
default of the OS. -/
theorem ttThreadAttributes_zero :
    ∃ (L : List (SchedEntry Nat Unit)) (s : SchedState 1 Nat),
      Calls (schedSys linuxSched 1 Nat Unit) Outside Own .zero L s ∧
      L.map LogEntry.call =
        [.threadCall (.create (some 1) (some ⟨.high, 0, none⟩) (some 7) none)] ∧
      s.threads.table.holds 10 0 = true ∧ (s.threads.mem 10).map (·.stackSize) = some 0 ∧
      (s.sched 20).ended = false ∧ (s.sched 20).stackSize = 8 * 1024 * 1024 ∧
      ¬ Described linuxSched s := by
  obtain ⟨es, s, hrun, hhanded, hholds, hrecord, hthread, hended, hstack⟩ : ∃ es s,
      (schedSys linuxSched 1 Nat Unit).Run () ((schedSys linuxSched 1 Nat Unit).body
        (.threadCall (.create (some 1) (some ⟨.high, 0, none⟩) (some 7) none))) .zero es
          (.err .success) s ∧ ThreadCreate.handed (Machine.seconds es) = [10] ∧
      s.threads.table.holds 10 0 = true ∧ (s.threads.mem 10).map (·.stackSize) = some 0 ∧
      (s.threads.startedFor 10).map (·.handle) = some 20 ∧ (s.sched 20).ended = false ∧
      (s.sched 20).stackSize = 8 * 1024 * 1024 :=
    ⟨_, _, Machine.run_of_eval ((createChoices 10 20 3).map .thread) rfl, rfl, rfl, rfl, rfl, rfl,
      rfl⟩
  refine ⟨_, s, (calls_create hrun (a := 10) (by simp [hhanded])).1, rfl, hholds, hrecord, hended,
    hstack, ?_⟩
  intro hdescribed
  obtain ⟨r, o, hr, ho, hdescribes⟩ := hdescribed 0 10 hholds
  rw [hr] at hrecord
  rw [ho] at hthread
  have hhandle : o.handle = 20 := Option.some.inj hthread
  rw [hhandle] at hdescribes
  have hsize := (hdescribes hended).stackSize
  have hzero : r.stackSize = 0 := Option.some.inj hrecord
  rw [hstack, hzero] at hsize
  cases hsize

end TinyTools
