/-
The thread functions keep what the records say of their threads.

One lemma for each kind of step, each on top of the one in `Owner.lean` for the same
step: that one says whose the record is before and after.
-/
import TinyTools.Proofs.Thread.Lifecycle

namespace TinyTools

open Interleave

namespace ThreadLife

open Thread (ThreadView ThreadEvent ledger ledgerStep ledger_snoc InTable Stored Joined Apart
  Owned Attr wp_platformCreate)

variable {N : Nat} {H τ : Type}

/-! ### Records in the state -/

section State

variable {s : ThreadState N H} {a b : Addr}

theorem handleOf_setMem_of_ne (hb : b ≠ a) (r : Option (TtThread H)) :
    (s.setMem a r).handleOf b = s.handleOf b := by
  unfold ThreadState.handleOf
  rw [s.setMem_mem_of_ne hb]

theorem stateOf_setMem_of_ne (hb : b ≠ a) (r : Option (TtThread H)) :
    stateOf (s.setMem a r) b = stateOf s b := by
  unfold stateOf
  rw [s.setMem_mem_of_ne hb]

theorem handleOf_write (s : ThreadState N H) (a b : Addr) (w : RecordWrite) :
    (s.setMem a ((s.mem a).map (·.write w))).handleOf b = s.handleOf b := by
  by_cases hb : b = a
  · subst hb
    unfold ThreadState.handleOf
    rw [s.setMem_mem_self]
    cases s.mem b <;> simp
  · exact handleOf_setMem_of_ne hb _

theorem stateOf_write {w : RecordWrite} (hw : ∀ st, w ≠ .state st) (s : ThreadState N H)
    (a b : Addr) : stateOf (s.setMem a ((s.mem a).map (·.write w))) b = stateOf s b := by
  by_cases hb : b = a
  · subst hb
    unfold stateOf
    rw [s.setMem_mem_self]
    cases w with
    | state st => exact absurd rfl (hw st)
    | _ => cases s.mem b <;> rfl
  · exact stateOf_setMem_of_ne hb _

theorem stateOf_write_state (st : TtThreadState) (hmem : s.mem a ≠ none) :
    stateOf (s.setMem a ((s.mem a).map (·.write (.state st)))) a = some st := by
  obtain ⟨r, hr⟩ := Option.ne_none_iff_exists'.mp hmem
  simp [stateOf, hr, TtThread.write]

theorem stateOf_spawn (s : ThreadState N H) (o : OsThread H) (a : Addr) :
    stateOf (s.spawn o) a = stateOf s a := by
  by_cases ha : a = o.record
  · subst ha
    simp only [stateOf, ThreadState.spawn, ThreadState.setMem_mem_self]
    cases s.mem o.record <;> rfl
  · exact stateOf_setMem_of_ne ha _

theorem started_self {s' : ThreadState N H} (hos : s'.os = s.os) :
    ∀ o, s.startedFor a = some o → ∃ o', s'.startedFor a = some o' ∧
      o'.handle = o.handle ∧ (o.status = .joined → o'.status = .joined) := by
  intro o ho
  refine ⟨o, ?_, rfl, fun hjoined => hjoined⟩
  unfold ThreadState.startedFor
  rw [hos]
  exact ho

variable [DecidableEq H]

theorem started_reap (h : H) (status : OsStatus) :
    ∀ o, s.startedFor a = some o → ∃ o', (s.reap h status).startedFor a = some o' ∧
      o'.handle = o.handle ∧ (o.status = .joined → o'.status = .joined) := by
  intro o ho
  have hafter := s.startedFor_reap h status a
  rw [ho, Option.map_some] at hafter
  refine ⟨_, hafter, ?_, ?_⟩
  · split <;> rfl
  · intro hjoined
    rw [if_neg]
    · exact hjoined
    · rw [hjoined]
      exact nofun

/-- Joining or detaching a thread, with success or not. -/
theorem started_reapExec {x : ThreadChoice H} {s' : ThreadState N H} {status : OsStatus}
    {handle : Option H} {ok : Bool} (hexec : reapExec status x handle s = (ok, s')) :
    s'.mem = s.mem ∧ ∀ o, s.startedFor a = some o → ∃ o', s'.startedFor a = some o' ∧
      o'.handle = o.handle ∧ (o.status = .joined → o'.status = .joined) := by
  rcases reapExec_cases hexec with ⟨-, rfl⟩ | ⟨h, -, -, -, rfl⟩
  · exact ⟨rfl, started_self rfl⟩
  · exact ⟨rfl, started_reap h status⟩

/-- The thread of a record has been joined once `pthread_join` has succeeded on its handle. -/
theorem joined_reap (hapart : s.os.Pairwise Apart) {o : OsThread H} (ho : s.startedFor a = some o)
    (hjoinable : s.joinable o.handle = true) : Joined (s.reap o.handle .joined) a := by
  have hafter := s.startedFor_reap o.handle .joined a
  rw [ho, Option.map_some] at hafter
  refine ⟨_, hafter, ?_⟩
  by_cases hjoined : o.status = .joinable
  · rw [if_pos ⟨rfl, hjoined⟩]
  · rw [if_neg fun hand => hjoined hand.2]
    obtain ⟨o', ho', hlive⟩ := List.any_eq_true.mp hjoinable
    have hlive' : o'.handle = o.handle ∧ o'.status = .joinable := of_decide_eq_true hlive
    by_contra hnot
    have hne : o ≠ o' := by
      intro heq
      subst heq
      exact hjoined hlive'.2
    refine hapart.forall (List.mem_of_find?_eq_some ho) ho' hne hnot ?_ hlive'.1.symm
    rw [hlive'.2]
    exact nofun

end State

/-! ### Steps that leave every record alone -/

section Functions

variable [DecidableEq H]

/-- The primitives that no record minds. -/
def Still (p : (threadSig H).Op) : Prop :=
  Thread.Quiet p ∧ ∀ a st, p ≠ .inl (.write a (.state st))

omit [DecidableEq H] in
/-- A primitive that leaves the record at `a` alone, and is none of those the books count. -/
theorem steady_prim {v : ThreadView N H τ} {id : Nat} {t : τ} {p : (threadSig H).Op}
    {r : (threadSig H).Res p} {s : ThreadState N H} {a : Addr}
    (hhandle : s.handleOf a = v.shared.handleOf a) (hstate : stateOf s a = stateOf v.shared a)
    (hstarted : ∀ o, v.shared.startedFor a = some o → ∃ o', s.startedFor a = some o' ∧
      o'.handle = o.handle ∧ (o.status = .joined → o'.status = .joined))
    (hin : InTable s a ↔ InTable v.shared a)
    (hledger : ledgerStep a (ledger v.trace a) (.prim id t p r : ThreadEvent H τ) =
      ledger v.trace a)
    (hregistered : ∀ b, registeredStep a b (.prim id t p r : ThreadEvent H τ) = b)
    (hsettled : ∀ b, settledStep a b (.prim id t p r : ThreadEvent H τ) = b) :
    Steady v (v.prim id t p r s) a := by
  refine ⟨hhandle, hstate, hstarted, hin, ?_, ?_, ?_⟩
  · unfold Known
    rw [View.prim_trace, ledger_snoc, hledger]
  · rw [View.prim_trace, registered_snoc, hregistered]
  · rw [View.prim_trace, settled_snoc, hsettled]

omit [DecidableEq H] in
theorem steady_same {v : ThreadView N H τ} {id : Nat} {t : τ} {p : (threadSig H).Op}
    {r : (threadSig H).Res p} {s : ThreadState N H} {a : Addr} (hs : s = v.shared)
    (hledger : ledgerStep a (ledger v.trace a) (.prim id t p r : ThreadEvent H τ) =
      ledger v.trace a)
    (hregistered : ∀ b, registeredStep a b (.prim id t p r : ThreadEvent H τ) = b)
    (hsettled : ∀ b, settledStep a b (.prim id t p r : ThreadEvent H τ) = b) :
    Steady v (v.prim id t p r s) a := by
  subst hs
  exact steady_prim rfl rfl (started_self rfl) .rfl hledger hregistered hsettled

theorem Still.steady {p : (threadSig H).Op} (hp : Still p) {v : ThreadView N H τ} {id : Nat}
    {t : τ} {x : ThreadChoice H} {r : (threadSig H).Res p} {s : ThreadState N H}
    (hexec : (threadMachine N H τ).exec x t p v.shared = some (r, s)) (a : Addr) :
    Steady v (v.prim id t p r s) a := by
  have hin : InTable s a ↔ InTable v.shared a := by
    unfold InTable
    rw [(hp.1.unchanged hexec).table]
  obtain ⟨hquiet, hwrite⟩ := hp
  rcases p with p | p
  · cases p with
    | write p w =>
        have hw : ∀ st, w ≠ .state st := fun st heq => hwrite p st (by rw [heq])
        cases hexec
        refine steady_prim (handleOf_write _ _ _ _) (stateOf_write hw _ _ _) (started_self rfl) hin
          rfl (fun _ => rfl) ?_
        intro b
        cases w with
        | state st => exact absurd rfl (hw st)
        | _ => rfl
    | readState p | readIsActive p | readHandle p =>
        exact steady_same (readExec_cases hexec).1 rfl (fun _ => rfl) fun _ => rfl
    | pthreadAttrInit =>
        exact steady_same (threadOpExec_attr (Or.inl rfl) hexec) rfl (fun _ => rfl) fun _ => rfl
    | pthreadAttrSetstacksize n =>
        exact steady_same (threadOpExec_attr (Or.inr ⟨n, rfl⟩) hexec) rfl (fun _ => rfl)
          fun _ => rfl
    | pthreadAttrDestroy =>
        cases hexec
        exact steady_same rfl rfl (fun _ => rfl) fun _ => rfl
    | pthreadJoin handle | pthreadDetach handle =>
        obtain ⟨hmem, hstarted⟩ := started_reapExec (a := a) (Option.some.inj hexec)
        refine steady_prim ?_ ?_ hstarted hin rfl (fun _ => rfl) fun _ => rfl
        · unfold ThreadState.handleOf
          rw [hmem]
        · unfold stateOf
          rw [hmem]
    | _ => exact hquiet.elim
  · cases p with
    | findByHandle handle =>
        cases hexec
        exact steady_same rfl rfl (fun _ => rfl) fun _ => rfl
    | _ => exact hquiet.elim

variable [DecidableEq τ] {t : τ} {id : Nat} {c : ThreadCall H} {β : Type}
  {Q : β → Life H → Prop} {a : Addr}

/-- The program `m`, in call `c`, from ghost `g`. -/
abbrev Safe (N : Nat) (t : τ) (id : Nat) (c : ThreadCall H) (m : Prog (threadSig H) β)
    (Q : β → Life H → Prop) (g : Life H) : Prop :=
  (outline N H τ).Wp (threadSys N H τ).toMachine t id c m Q g

/-- A step that leaves every record alone, after which the ghost may say more. -/
theorem safe_learn {p : (threadSig H).Op} {k : (threadSig H).Res p → Prog _ β} {g : Life H}
    (hp : Still p) (hk : ∀ (v : ThreadView N H τ) x r s, Thread.Sound v.shared →
      Thread.Knows v t g.base → (∀ a, Known (v.prim id t p r s) a → Tells v a) →
      (threadMachine N H τ).exec x t p v.shared = some (r, s) →
      ∃ g', g'.base = g.base ∧ (Knows (v.prim id t p r s) g → Knows (v.prim id t p r s) g') ∧
        Safe N t id c (k r) Q g') : Safe N t id c (.step p k) Q g := by
  refine Outline.Wp.extend (fun _ => g.base) (fun _ _ => rfl)
    (Thread.safe_quiet hp.1 fun _ => rfl) ?_
  intro v G _ hinv hextra hgt _ x r s hexec _ _
  subst hgt
  have hsteady : ∀ a, Steady v (v.prim id t p r s) a := fun a => hp.steady hexec a
  obtain ⟨g', hbase, hg', hk'⟩ := hk v x r s hinv.sound (hinv.knows t)
    (fun a hknown => hextra.tells a ((hsteady a).known.mp hknown)) hexec
  refine ⟨g', hbase, hextra.keep rfl hsteady (hg' ?_), hk'⟩
  exact (hextra.knows t).transfer rfl (fun a => (hsteady a).lasting) fun a _ => Or.inl (hsteady a)

theorem safe_still {p : (threadSig H).Op} {k : (threadSig H).Res p → Prog _ β} {g : Life H}
    (hp : Still p) (hk : ∀ r, Safe N t id c (k r) Q g) : Safe N t id c (.step p k) Q g :=
  safe_learn hp fun _ _ r _ _ _ _ _ => ⟨g, rfl, fun h => h, hk r⟩

/-! ### The steps of create -/

omit [DecidableEq H] [DecidableEq τ] in
/-- A primitive that is neither about the table nor about the thread of a record. -/
theorem Lists.prim {v : ThreadView N H τ} {p : (threadSig H).Op} {r : (threadSig H).Res p}
    {s : ThreadState N H} (h : Lists v a) (hos : s.os = v.shared.os)
    (htable : s.table = v.shared.table)
    (hregistered : ∀ st, registeredStep a st (.prim id t p r : ThreadEvent H τ) = st) :
    Lists (v.prim id t p r s) a := by
  have hin : InTable s a ↔ InTable v.shared a := by
    unfold InTable
    rw [htable]
  refine ⟨?_, ?_⟩
  · intro hst
    rw [View.prim_trace, registered_snoc, hregistered] at hst
    refine (h.listed hst).imp ?_ hin.mpr
    rintro ⟨o, ho, hjoined⟩
    obtain ⟨o', ho', -, hjoined'⟩ := started_self hos o ho
    exact ⟨o', ho', hjoined' hjoined⟩
  · intro hst
    rw [View.prim_trace, registered_snoc, hregistered]
    exact h.registered (hin.mp hst)

omit [DecidableEq H] in
/-- A step of create on its own record, of which the clients do not know, nor will. -/
theorem Extra.create {v : ThreadView N H τ} {G : τ → Life H} (h : Extra v G)
    (hmine : ∀ u, u ≠ t → (G u).base.owns ≠ some a) (hunknown : ledger v.trace a = .unknown)
    {p : (threadSig H).Op} {r : (threadSig H).Res p} {s : ThreadState N H} {g : Life H}
    (hledger : ∀ st, ledgerStep a st (.prim id t p r : ThreadEvent H τ) = st)
    (hsteady : ∀ b, b ≠ a → Steady v (v.prim id t p r s) b)
    (hg : ¬ Known (v.prim id t p r s) a → Knows (v.prim id t p r s) g)
    (hlists : Lists (v.prim id t p r s) a) :
    Extra (v.prim id t p r s) (Function.update G t g) := by
  have hunknown' : ¬ Known (v.prim id t p r s) a := by
    intro hknown
    refine hknown ?_
    rw [View.prim_trace, ledger_snoc, hledger]
    exact hunknown
  refine h.focus (a := a) rfl hsteady ?_ ?_ (hg hunknown') ?_ hlists
  · intro hknown
    exact absurd hunknown hknown
  · intro u hu hown
    exact absurd hown (hmine u hu)
  · intro hknown
    exact absurd hknown hunknown'

omit [DecidableEq H] [DecidableEq τ] in
/-- An assignment to one record is nothing to another. -/
theorem steady_setMem {v : ThreadView N H τ} {p : (threadSig H).Op} {r : (threadSig H).Res p}
    {b : Addr} (hb : b ≠ a) (x : Option (TtThread H))
    (hledger : ledgerStep b (ledger v.trace b) (.prim id t p r : ThreadEvent H τ) =
      ledger v.trace b)
    (hregistered : ∀ st, registeredStep b st (.prim id t p r : ThreadEvent H τ) = st)
    (hsettled : ∀ st, settledStep b st (.prim id t p r : ThreadEvent H τ) = st) :
    Steady v (v.prim id t p r (v.shared.setMem a x)) b :=
  steady_prim (handleOf_setMem_of_ne hb _) (stateOf_setMem_of_ne hb _) (started_self rfl) .rfl
    hledger hregistered hsettled

/-- `malloc` in create. -/
theorem safe_malloc {k : Option Addr → Prog (threadSig H) β}
    (hnone : Safe N t id c (k none) Q .idle)
    (hsome : ∀ a, Safe N t id c (k (some a)) Q (.making a)) :
    Safe N t id c (.step (.inl .malloc) k) Q .idle := by
  refine Outline.Wp.extend (fun p : Option Addr => p.elim .idle .making) (fun _ _ => rfl)
    (Thread.safe_malloc rfl fun _ => rfl) ?_
  intro v G _ hinv hextra hgt _ x p s hexec _ _
  rcases threadOpExec_malloc hexec with ⟨rfl, rfl⟩ | ⟨a, r, hfree, rfl, rfl⟩
  · refine ⟨.idle, rfl, hextra.keep rfl (fun a => ?_) trivial, hnone⟩
    exact steady_same rfl rfl (fun _ => rfl) fun _ => rfl
  · obtain ⟨-, -, howns, hunknown⟩ := hinv.not_owned hfree
    refine ⟨.making a, rfl, hextra.create (fun u _ => howns u) hunknown (fun _ => rfl) ?_
      (fun _ => trivial) ((hextra.lists a).prim rfl rfl fun _ => rfl), hsome a⟩
    intro b hb
    exact steady_setMem hb _ rfl (fun _ => rfl) fun _ => rfl

/-- `TT_THREAD_STATE_CREATED` is stored in the record that is being made. -/
theorem safe_writeCreated {g : Life H} {k : Unit → Prog (threadSig H) β}
    (hg : g.base = .making a) (hk : Safe N t id c (k ()) Q (.made a)) :
    Safe N t id c (.step (.inl (.write a (.state .created))) k) Q g := by
  refine Outline.Wp.extend (fun _ => g.base) (fun _ _ => rfl)
    (Thread.safe_quiet trivial fun _ => rfl) ?_
  intro v G _ hinv hextra hgt _ x r s hexec _ _
  subst hgt
  obtain ⟨howns, hmine, -, hunknown⟩ := hinv.mine (t := t) (Or.inl hg)
  have hmem := hinv.mem_of_owns howns
  cases hexec
  refine ⟨.made a, hg.symm, hextra.create hmine hunknown (fun _ => rfl) ?_ ?_
    ((hextra.lists a).prim rfl rfl fun _ => rfl), hk⟩
  · intro b hb
    exact steady_setMem hb _ rfl (fun _ => rfl) fun _ => rfl
  · intro hunknown'
    exact ⟨hunknown', stateOf_write_state .created hmem⟩

/-- `pthread_create` in create. -/
theorem safe_pthreadCreate {stackSize : Option Nat} {func : Addr} {arg : Option Addr}
    {k : Bool → Prog (threadSig H) β} (hfailed : Safe N t id c (k false) Q (.made a))
    (hspawned : Safe N t id c (k true) Q (.spawned a)) :
    Safe N t id c (.step (.inl (.pthreadCreate a stackSize func arg)) k) Q (.made a) := by
  refine Outline.Wp.extend (fun ok : Bool => if ok then .started a else .making a) (fun _ _ => rfl)
    (Thread.safe_pthreadCreate rfl rfl) ?_
  intro v G _ hinv hextra hgt _ x ok s hexec _ _
  have hbase : (Life.base ∘ G) t = .making a := congrArg Life.base hgt
  have hknows : ¬ Known v a ∧ stateOf v.shared a = some .created :=
    Outline.at_ghost hextra.knows hgt
  have hin : ¬ InTable v.shared a := (Outline.at_ghost hinv.knows hbase).2
  obtain ⟨-, hmine, -, hunknown⟩ := hinv.mine (Or.inl hbase)
  rcases threadOpExec_pthreadCreate hexec with ⟨rfl, rfl⟩ | ⟨h, -, rfl, rfl⟩
  · have hsteady : ∀ b, Steady v (v.prim id t (.inl (.pthreadCreate a stackSize func arg)) false
        v.shared) b := by
      intro b
      exact steady_same rfl rfl (fun _ => if_neg fun hand => Bool.false_ne_true hand.2) fun _ => rfl
    refine ⟨.made a, rfl, hextra.keep rfl hsteady ?_, hfailed⟩
    exact ⟨fun hk => hknows.1 ((hsteady a).known.mp hk), hknows.2⟩
  · let o : OsThread H := ⟨h, a, stackSize, func, arg, .joinable⟩
    refine ⟨.spawned a, rfl, hextra.create hmine hunknown (fun _ => rfl) ?_ ?_ ?_, hspawned⟩
    · intro b hb
      refine steady_prim (handleOf_setMem_of_ne hb _) (stateOf_setMem_of_ne hb _) ?_ .rfl rfl
        (fun _ => if_neg fun hand => hb hand.1.symm) fun _ => rfl
      intro o' ho'
      exact ⟨o', (v.shared.startedFor_spawn_of_ne (o := o) hb).trans ho', rfl, fun hjoined => hjoined⟩
    · intro hunknown'
      exact ⟨hunknown', (stateOf_spawn v.shared o a).trans hknows.2⟩
    · refine ⟨?_, fun hin' => absurd hin' hin⟩
      intro hregistered
      rw [View.prim_trace, registered_snoc] at hregistered
      exact absurd ((if_pos ⟨rfl, rfl⟩).symm.trans hregistered) Bool.false_ne_true

/-- Registering the record in create. -/
theorem safe_register {k : TtError → Prog (threadSig H) β}
    (hlisted : Safe N t id c (k .success) Q (.listed a))
    (hfull : Safe N t id c (k .notFound) Q (.spawned a)) :
    Safe N t id c (.step (.inr (.register (some a))) k) Q (.spawned a) := by
  refine Outline.Wp.extend (fun e : TtError => if e = .success then .registered a else .started a)
    (fun _ _ => rfl) (Thread.safe_register rfl rfl) ?_
  intro v G _ hinv hextra hgt _ x result s hexec _ _
  have hbase : (Life.base ∘ G) t = .started a := congrArg Life.base hgt
  have hknows : ¬ Known v a ∧ stateOf v.shared a = some .created :=
    Outline.at_ghost hextra.knows hgt
  obtain ⟨hstored, hin⟩ : Stored v.shared a ∧ ¬ InTable v.shared a :=
    Outline.at_ghost hinv.knows hbase
  obtain ⟨-, hmine, -, hunknown⟩ := hinv.mine (Or.inr (Or.inl hbase))
  cases hexec
  rcases v.shared.table.register_cases a with ⟨i, hi, hregister⟩ | ⟨-, hregister⟩
  · rw [hregister]
    obtain ⟨-, hin', hkeeps⟩ := hinv.sound.register hi hstored hin
    refine ⟨.listed a, rfl, hextra.create hmine hunknown (fun _ => rfl) ?_ ?_ ?_, hlisted⟩
    · intro b hb
      exact steady_prim rfl rfl (started_self rfl) (hkeeps b hb).inTable rfl
        (fun _ => if_neg fun hand => hb (Option.some.inj hand.1).symm) fun _ => rfl
    · intro hunknown'
      exact ⟨hunknown', hknows.2⟩
    · refine ⟨fun _ => Or.inr hin', fun _ => ?_⟩
      rw [View.prim_trace, registered_snoc]
      exact if_pos ⟨rfl, rfl⟩
  · rw [hregister]
    have hsteady : ∀ b, Steady v (v.prim id t (.inr (.register (some a))) .notFound v.shared) b := by
      intro b
      exact steady_same rfl rfl
        (fun _ => if_neg fun hand => TtError.noConfusion hand.2) fun _ => rfl
    refine ⟨.spawned a, rfl, hextra.keep rfl hsteady ?_, hfull⟩
    exact ⟨fun hk => hknows.1 ((hsteady a).known.mp hk), hknows.2⟩

/-- `*thread = new_thread` hands the record out. -/
theorem safe_writeVar {w : Addr} {k : Unit → Prog (threadSig H) β}
    (hk : Safe N t id c (k ()) Q .idle) :
    Safe N t id c (.step (.inl (.writeVar w a)) k) Q (.listed a) := by
  refine Outline.Wp.extend (fun _ => .idle) (fun _ _ => rfl) (Thread.safe_writeVar rfl) ?_
  intro v G _ hinv hextra hgt _ x _ s hexec _ _
  have hbase : (Life.base ∘ G) t = .registered a := congrArg Life.base hgt
  have hcreated : stateOf v.shared a = some .created := (Outline.at_ghost hextra.knows hgt).2
  have hin : InTable v.shared a := Outline.at_ghost hinv.knows hbase
  obtain ⟨-, hmine, -, hunknown⟩ := hinv.mine (Or.inr (Or.inr hbase))
  have hstored : Stored v.shared a := hin.stored hinv.sound
  cases hexec
  refine ⟨.idle, rfl, hextra.focus (a := a) rfl ?_ ?_ ?_ trivial ?_
    ((hextra.lists a).prim rfl rfl fun _ => rfl), hk⟩
  · intro b hb
    exact steady_prim rfl rfl (started_self rfl) .rfl (if_neg hb.symm) (fun _ => rfl)
      fun _ => if_neg hb.symm
  · intro hknown
    exact absurd hunknown hknown
  · intro u hu hown
    exact absurd hown (hmine u hu)
  · intro _
    refine ⟨hstored, Or.inl ⟨hcreated, ?_⟩⟩
    rw [View.prim_trace, settled_snoc]
    exact if_pos rfl

/-- Freeing a record that is not in the table. -/
theorem safe_free {g : Life H}
    (hg : g.base = .making a ∨ g.base = .started a ∨ g.base = .removed a)
    {k : Unit → Prog (threadSig H) β} (hk : Safe N t id c (k ()) Q .idle) :
    Safe N t id c (.step (.inl (.free a)) k) Q g := by
  refine Outline.Wp.extend (fun _ => .idle) (fun _ _ => rfl) (Thread.safe_free hg rfl) ?_
  intro v G _ hinv hextra hgt _ x _ s hexec _ _
  subst hgt
  have howns : (G t).base.owns = some a := by
    rcases hg with hg | hg | hg <;> rw [hg] <;> rfl
  have hmine := hinv.exclusive.others howns
  cases hexec
  refine ⟨.idle, rfl, hextra.focus (a := a) rfl ?_ ?_ ?_ trivial ?_
    ((hextra.lists a).prim rfl rfl fun _ => rfl), hk⟩
  · intro b hb
    exact steady_setMem hb _ (if_neg hb.symm) (fun _ => rfl) fun _ => rfl
  · intro _
    refine Or.inr fun id' hjoins => At.last ⟨⟨id, t, rfl⟩, hjoins⟩
  · intro u hu hown
    exact absurd hown (hmine u hu)
  · intro hknown
    refine absurd ?_ hknown
    rw [View.prim_trace, ledger_snoc]
    exact if_pos rfl

/-! ### The steps of join -/

/-- Reading the handle in join. -/
theorem safe_readHandle {k : Option H → Prog (threadSig H) β}
    (hk : ∀ handle, Safe N t id c (k handle) Q (.waiting id a handle)) :
    Safe N t id c (.step (.inl (.readHandle a)) k) Q (.joining id a) := by
  refine safe_learn ⟨trivial, nofun⟩ fun v x handle s _ _ htells hexec => ?_
  refine ⟨.waiting id a handle, rfl, fun hfound => hfound.imp fun hknown _ => ?_, hk handle⟩
  obtain ⟨rfl, hread⟩ := readExec_cases hexec
  obtain ⟨r, o, hr, -, -⟩ := (htells a hknown).stored
  rw [hread r hr]
  show ((v.shared.mem a).bind (·.handle)) = r.handle
  rw [hr]
  rfl

/-- `pthread_join` on the handle that was read. -/
theorem safe_pthreadJoin {handle : Option H} {k : Bool → Prog (threadSig H) β}
    (hfailed : Safe N t id c (k false) Q .idle)
    (hreaped : Safe N t id c (k true) Q (.reaped id a)) :
    Safe N t id c (.step (.inl (.pthreadJoin handle)) k) Q (.waiting id a handle) := by
  refine safe_learn ⟨trivial, nofun⟩ fun v x ok s hsound _ htells hexec => ?_
  rcases reapExec_cases (Option.some.inj hexec) with ⟨rfl, -⟩ | ⟨h, rfl, hjoinable, rfl, rfl⟩
  · exact ⟨.idle, rfl, fun _ => trivial, hfailed⟩
  · refine ⟨.reaped id a, rfl, fun hfound => hfound.imp fun hknown hhandle => ?_, hreaped⟩
    obtain ⟨o, ho, hstored⟩ := stored_iff.mp (htells a hknown).stored
    have heq : h = o.handle := Option.some.inj (hhandle.symm.trans hstored)
    subst heq
    exact joined_reap hsound.apart ho hjoinable

/-- `TT_THREAD_STATE_TERMINATED` is stored in a record whose thread has been joined. -/
theorem safe_writeTerminated {k : Unit → Prog (threadSig H) β}
    (hk : Safe N t id c (k ()) Q .idle) :
    Safe N t id c (.step (.inl (.write a (.state .terminated))) k) Q (.reaped id a) := by
  refine Outline.Wp.extend (fun _ => .idle) (fun _ _ => rfl)
    (Thread.safe_quiet trivial fun _ => rfl) ?_
  intro v G _ _ hextra hgt _ x _ s hexec hstop _
  obtain ⟨-, hfound⟩ : Found v id a (Joined v.shared a) := Outline.at_ghost hextra.knows hgt
  -- Had the record been freed, this store would be stale.
  obtain ⟨hknown, hjoined⟩ := hfound.resolve_left fun hfreed =>
    hstop (At.last ⟨id, t, a, .terminated, rfl, hfreed⟩)
  have htells := hextra.tells a hknown
  have hmem : v.shared.mem a ≠ none := htells.stored.mem
  cases hexec
  have hhandle := handleOf_write v.shared a a (.state .terminated)
  refine ⟨.idle, rfl, hextra.focus (a := a) rfl ?_ ?_ ?_ trivial ?_
    ((hextra.lists a).prim rfl rfl fun _ => rfl), hk⟩
  · intro b hb
    exact steady_setMem hb _ rfl (fun _ => rfl) fun _ => if_neg hb.symm
  · intro _
    refine Or.inl ⟨?_, hhandle, fun h => h⟩
    unfold Known
    rw [View.prim_trace, ledger_snoc]
    exact hknown
  · intro _ _ _
    exact ⟨hknown, fun h => h⟩
  · intro _
    refine ⟨?_, Or.inr ⟨stateOf_write_state .terminated hmem, ?_, hjoined⟩⟩
    · obtain ⟨o, ho, hstored⟩ := stored_iff.mp htells.stored
      exact stored_iff.mpr ⟨o, ho, hhandle.trans hstored⟩
    · rw [View.prim_trace, settled_snoc]
      exact if_pos rfl

/-! ### The steps of destroy -/

/-- Reading the state of a record that the clients do not know of yet. -/
theorem safe_readState_spawned {k : TtThreadState → Prog (threadSig H) β}
    (hk : Safe N t id c (k .created) Q (.spawned a)) :
    Safe N t id c (.step (.inl (.readState a)) k) Q (.spawned a) := by
  refine Outline.Wp.extend (fun _ => .started a) (fun _ _ => rfl)
    (Thread.safe_quiet trivial fun _ => rfl) ?_
  intro v G _ _ hextra hgt _ x st s hexec _ _
  have hknows : ¬ Known v a ∧ stateOf v.shared a = some .created :=
    Outline.at_ghost hextra.knows hgt
  have hstill : Still (.inl (.readState a) : (threadSig H).Op) := ⟨trivial, nofun⟩
  have hsteady : ∀ b, Steady v (v.prim id t (.inl (.readState a)) st s) b :=
    fun b => hstill.steady hexec b
  obtain ⟨rfl, hread⟩ := readExec_cases hexec
  obtain ⟨r, hr, hstate⟩ := Option.map_eq_some_iff.mp hknows.2
  have hst : st = .created := (hread r hr).trans hstate
  subst hst
  refine ⟨.spawned a, rfl, hextra.keep rfl hsteady ?_, hk⟩
  exact ⟨fun hknown => hknows.1 ((hsteady a).known.mp hknown), hknows.2⟩

/-- Reading the state of the record in destroy. -/
theorem safe_readState {k : TtThreadState → Prog (threadSig H) β}
    (hactive : ∀ st, st ≠ .terminated → Safe N t id c (k st) Q (.closing a))
    (hcondemned : Safe N t id c (k .terminated) Q (.condemned a)) :
    Safe N t id c (.step (.inl (.readState a)) k) Q (.closing a) := by
  refine safe_learn ⟨trivial, nofun⟩ fun v x st s _ hknows htells hexec => ?_
  by_cases hst : st = .terminated
  · subst hst
    refine ⟨.condemned a, rfl, fun _ => ?_, hcondemned⟩
    obtain ⟨rfl, hread⟩ := readExec_cases hexec
    have hknown : Known (v.prim id t (.inl (.readState a)) .terminated v.shared) a := by
      unfold Known
      rw [View.prim_trace, ledger_snoc]
      exact fun heq => Thread.RecordStatus.noConfusion (hknows.1.symm.trans heq)
    rcases (htells a hknown).state with hcreated | hterminated
    · obtain ⟨r, hr, hstate⟩ := Option.map_eq_some_iff.mp hcreated.1
      have heq := (hread r hr).trans hstate
      cases heq
    · exact hterminated.2.2
  · exact ⟨.closing a, rfl, fun h => h, hactive st hst⟩

/-- Taking the record out of the table in destroy. -/
theorem safe_unregister {k : TtError → Prog (threadSig H) β} (hc : c = .destroy (some a))
    (hremoved : Safe N t id c (k .success) Q (.removed a))
    (hlost : Safe N t id c (k .notFound) Q (.condemned a)) :
    Safe N t id c (.step (.inr (.unregister (some a))) k) Q (.condemned a) := by
  refine Outline.Wp.extend (fun e : TtError => if e = .success then .removed a else .closing a)
    (fun _ _ => rfl) (Thread.safe_unregister hc rfl rfl) ?_
  intro v G _ hinv hextra hgt _ x result s hexec _ _
  have hjoined : Joined v.shared a := Outline.at_ghost hextra.knows hgt
  have howns : ((Life.base ∘ G) t).owns = some a := by
    rw [Function.comp_apply, hgt]
    rfl
  have hmine := hinv.exclusive.others howns
  cases hexec
  rcases v.shared.table.unregister_cases a with ⟨i, hi, hunregister⟩ | ⟨-, hunregister⟩
  · rw [hunregister]
    obtain ⟨-, hin, hkeeps⟩ := hinv.sound.unregister hi
    have hknown : Known (v.prim id t (.inr (.unregister (some a))) .success
        { v.shared with table := Function.update v.shared.table i .zero }) a ↔ Known v a := by
      unfold Known
      rw [View.prim_trace, ledger_snoc]
      rfl
    refine ⟨.removed a, rfl, hextra.focus (a := a) rfl ?_ ?_ ?_ hjoined ?_
      ⟨fun _ => Or.inl hjoined, fun hin' => absurd hin' hin⟩, hremoved⟩
    · intro b hb
      exact steady_prim rfl rfl (started_self rfl) (hkeeps b hb).inTable rfl (fun _ => rfl)
        fun _ => rfl
    · intro h
      exact Or.inl ⟨hknown.mpr h, rfl, fun h => h⟩
    · intro u hu hown
      exact absurd hown (hmine u hu)
    · intro h
      have htells := hextra.tells a (hknown.mp h)
      refine ⟨htells.stored, ?_⟩
      rw [View.prim_trace, settled_snoc]
      exact htells.state
  · rw [hunregister]
    refine ⟨.condemned a, rfl, hextra.keep rfl (fun b => ?_) hjoined, hlost⟩
    exact steady_same rfl rfl (fun _ => rfl) fun _ => rfl

/-! ### The functions -/

/-- `tt_platform_thread_create` on a record that is being made. -/
theorem safe_platformCreate {func : Addr} {attr : Option TtThreadAttr} {arg : Option Addr}
    {Q : TtError → Life H → Prop} (hfailed : Q .threadCreate (.made a))
    (hspawned : Q .success (.spawned a)) :
    Safe N t id c (ttPlatformThreadCreate (some a) attr (some func) arg) Q (.made a) := by
  have hstill : ∀ {p : ThreadOp H}, Attr p → Still (.inl p) := by
    rintro p (rfl | ⟨n, rfl⟩ | rfl) <;> exact ⟨trivial, nofun⟩
  refine wp_platformCreate (fun hp => safe_still (hstill hp)) ?_ hfailed
  intro stackSize
  refine safe_writeCreated rfl (safe_pthreadCreate ?_ ?_)
  · exact safe_still ⟨trivial, nofun⟩ fun _ => hfailed
  · exact safe_still ⟨trivial, nofun⟩ fun _ => hspawned

/-- The roll-back of create refuses to destroy the record, as its thread has only been created. -/
theorem safe_rollback {Q : TtError → Life H → Prop} (hQ : Q .threadActive (.spawned a)) :
    Safe N t id c (ttPlatformThreadDestroy (some a)) Q (.spawned a) :=
  safe_readState_spawned hQ

theorem safe_create {thread : Option Addr} {attr : Option TtThreadAttr} {func arg : Option Addr}
    {Q : TtError → Life H → Prop} (hQ : ∀ e, Q e .idle) :
    Safe N t id c (ttThreadCreate thread attr func arg) Q .idle := by
  cases thread with
  | none => exact hQ .nullPointer
  | some w =>
  cases func with
  | none => exact hQ .nullPointer
  | some func =>
  refine safe_malloc (hQ .memory) fun a => ?_
  refine safe_still ⟨trivial, nofun⟩ fun _ => safe_still ⟨trivial, nofun⟩ fun _ => ?_
  refine safe_writeCreated rfl ?_
  refine safe_still ⟨trivial, nofun⟩ fun _ => safe_still ⟨trivial, nofun⟩ fun _ =>
    safe_still ⟨trivial, nofun⟩ fun _ => safe_still ⟨trivial, nofun⟩ fun _ => ?_
  refine Outline.Wp.bind (safe_platformCreate ?_ ?_)
  · exact safe_free (Or.inl rfl) (hQ .threadCreate)
  · refine safe_register ?_ ?_
    · exact safe_writeVar (hQ .success)
    · refine Outline.Wp.bind (safe_rollback ?_)
      exact safe_free (Or.inr (Or.inl rfl)) (hQ .notFound)

theorem safe_join {Q : TtError → Life H → Prop} (hQ : ∀ e, Q e .idle) :
    Safe N t id c (ttThreadJoin (some a)) Q (.joining id a) := by
  refine safe_readHandle fun handle => safe_pthreadJoin (hQ .threadJoin) ?_
  exact safe_writeTerminated (safe_still ⟨trivial, nofun⟩ fun _ => hQ .success)

/-- `tt_thread_destroy`, by the call that is destroying the record. -/
theorem safe_destroy {Q : TtError → Life H → Prop} (hc : c = .destroy (some a))
    (hactive : Q .threadActive (.closing a)) (hnotFound : Q .notFound (.condemned a))
    (hdetach : Q .threadDetach (.removed a)) (hsuccess : Q .success .idle) :
    Safe N t id c (ttThreadDestroy (some a)) Q (.closing a) := by
  have hfree : Safe N t id c (.step (.inl (.free a)) fun _ => .ret .success) Q (.removed a) :=
    safe_free (Or.inr (Or.inr rfl)) hsuccess
  refine safe_readState ?_ ?_
  · intro st hst
    show Safe N t id c (if st ≠ .terminated then .ret .threadActive else _) Q _
    rw [if_pos hst]
    exact hactive
  · refine safe_unregister hc ?_ hnotFound
    refine safe_still ⟨trivial, nofun⟩ fun isActive => ?_
    cases isActive with
    | false => exact hfree
    | true =>
        refine safe_still ⟨trivial, nofun⟩ fun handle => safe_still ⟨trivial, nofun⟩ fun ok => ?_
        cases ok with
        | false => exact hdetach
        | true => exact safe_still ⟨trivial, nofun⟩ fun _ => hfree

/-! ### Calls and returns -/

omit [DecidableEq H] in
/-- The clients call a destroy only of a record they know of. -/
theorem steady_call {v : ThreadView N H τ} (hok : Owned v t c) (b : Addr) :
    Steady v (v.call t c) b := by
  refine ⟨rfl, rfl, started_self rfl, .rfl, ?_, ?_, ?_⟩
  · unfold Known
    rw [View.call_trace, ledger_snoc]
    cases c with
    | destroy thread =>
        cases thread with
        | none => exact .rfl
        | some a =>
            have hhanded : ledger v.trace a = .handed := hok
            simp only [ledgerStep, Option.some.injEq]
            split
            · rename_i hab
              subst hab
              rw [hhanded]
              exact iff_of_true (by decide) (by decide)
            · exact .rfl
    | _ => exact .rfl
  · rw [View.call_trace, registered_snoc]
    rfl
  · rw [View.call_trace, settled_snoc]
    rfl

omit [DecidableEq H] in
/-- A destroy that fails gives back a record the clients know of. -/
theorem steady_ret {v : ThreadView N H τ} {result : TableVal}
    (hknown : ∀ b, c = .destroy (some b) → result ≠ .err .success → Known v b) (b : Addr) :
    Steady v (v.ret id t c result) b := by
  refine ⟨rfl, rfl, started_self rfl, .rfl, ?_, ?_, ?_⟩
  · have hsnoc : ledger (v.ret id t c result).trace b =
        ledgerStep b (ledger v.trace b) (.ret id t c result) := ledger_snoc _ _ _
    unfold Known
    rw [hsnoc]
    cases c with
    | destroy thread =>
        simp only [ledgerStep]
        split
        · rename_i hfailed
          exact iff_of_true (by decide) (hknown b (by rw [hfailed.1]) hfailed.2)
        · exact .rfl
    | _ => exact .rfl
  · rw [View.ret_trace, registered_snoc]
    rfl
  · rw [View.ret_trace, settled_snoc]
    rfl

omit [DecidableEq H] in
/-- A call that returns, in the words of the outline below. -/
theorem final_of_base {result : TableVal} {g : Life H}
    (hbase : (Thread.outline N H τ).Final t id c result g.base)
    (hknown : ∀ (v : ThreadView N H τ), Thread.Knows v t g.base →
      ∀ b, c = .destroy (some b) → result ≠ .err .success → Known v b) :
    (outline N H τ).Final t id c result g := by
  refine Outline.Final.extend (show (Life.idle : Life H) = .idle from rfl) (fun g₁ hg₁ => Eq.symm hg₁)
    hbase ?_
  intro v G _ hinv hextra hgt _
  subst hgt
  exact hextra.keep rfl (steady_ret (hknown v (hinv.knows t))) trivial

omit [DecidableEq H] in
/-- A destroy that fails. -/
theorem final_failed {e : TtError} {g : Life H} (hc : c = .destroy (some a)) (he : e ≠ .success)
    (hg : (e ≠ .threadDetach ∧ g.base = .closing a) ∨
      (e = .threadDetach ∧ g.base = .removed a)) :
    (outline N H τ).Final t id c (.err e) g := by
  refine final_of_base (Thread.final_failed hc he hg) ?_
  intro v hknows b hb _
  have hab := hc.symm.trans hb
  cases hab
  have hledger : ledger v.trace a = .destroying := by
    rcases hg with ⟨-, hg⟩ | ⟨-, hg⟩
    · rw [hg] at hknows
      exact hknows.1
    · rw [hg] at hknows
      exact hknows.1
  exact fun hunknown => Thread.RecordStatus.noConfusion (hledger.symm.trans hunknown)

omit [DecidableEq H] in
/-- A call that returns with no record in hand. -/
theorem final_idle {result : TableVal} (hc : ∀ b, c ≠ .destroy (some b)) :
    (outline N H τ).Final t id c result .idle := by
  refine final_of_base (Thread.final_idle ?_ fun b hb => absurd hb (hc b)) fun _ _ b hb =>
    absurd hb (hc b)
  intro b st
  cases c with
  | destroy thread =>
      cases thread with
      | none => simp [ledgerStep]
      | some a => exact absurd rfl (hc a)
  | _ => rfl

omit [DecidableEq H] in
/-- A call that takes no record in hand. -/
theorem inv_call {v : ThreadView N H τ} {G : τ → Life H} (hinv : (outline N H τ).inv v G)
    (hidle : G t = .idle) (hok : Owned v t c) {g : Life H} (hg : g.base = .idle)
    (hknows : Knows (v.call t c) g)
    (hledger : ∀ a st, ledgerStep a st (.call v.next t c : ThreadEvent H τ) = st) :
    (outline N H τ).inv (v.call t c) (Function.update G t g) := by
  obtain ⟨hbase, hextra⟩ := hinv
  have hidle' : (Life.base ∘ G) t = .idle := congrArg Life.base hidle
  refine ⟨?_, hextra.keep rfl (steady_call hok) hknows⟩
  rw [Function.comp_update, hg, ← hidle', Function.update_eq_self]
  exact hbase.call hidle' hledger

/-- A call keeps the invariant from beginning to end. -/
theorem safe_call (v : ThreadView N H τ) (G : τ → Life H) (t : τ) (c : ThreadCall H) (hb : Books v)
    (hinv : (outline N H τ).inv v G) (_ : v.calls t = none) (hidle : (outline N H τ).idle (G t))
    (hok : Owned v t c) (_ : ¬ (outline N H τ).stop (v.call t c).trace) :
    ∃ g, (outline N H τ).inv (v.call t c) (Function.update G t g) ∧
      Safe N t v.next c ((threadSys N H τ).body c) ((outline N H τ).Final t v.next c) g := by
  cases c with
  | init => exact hok.elim
  | create thread attr func arg =>
      refine ⟨.idle, inv_call hinv hidle hok rfl trivial fun _ _ => rfl, ?_⟩
      exact Outline.Wp.bind (safe_create fun e => final_idle (by rintro _ ⟨⟩))
  | findByHandle handle =>
      refine ⟨.idle, inv_call hinv hidle hok rfl trivial fun _ _ => rfl, ?_⟩
      exact safe_still ⟨trivial, by rintro _ _ ⟨⟩⟩ fun thread => final_idle (by rintro _ ⟨⟩)
  | join thread =>
      cases thread with
      | none =>
          refine ⟨.idle, inv_call hinv hidle hok rfl trivial fun _ _ => rfl, ?_⟩
          exact final_idle (by rintro _ ⟨⟩)
      | some a =>
          refine ⟨.joining v.next a, inv_call hinv hidle hok rfl ?_ fun _ _ => rfl, ?_⟩
          · have hhanded : ledger v.trace a = .handed := hok
            have hknown : Known v a :=
              fun hunknown => Thread.RecordStatus.noConfusion (hhanded.symm.trans hunknown)
            exact ⟨⟨t, List.mem_append_right _ (.head _)⟩,
              Or.inr ⟨(steady_call hok a).known.mpr hknown, trivial⟩⟩
          · exact Outline.Wp.bind (safe_join fun e => final_idle (by rintro _ ⟨⟩))
  | destroy thread =>
      cases thread with
      | none =>
          refine ⟨.idle, inv_call hinv hidle hok rfl trivial fun _ _ => by simp [ledgerStep], ?_⟩
          exact final_idle (by rintro _ ⟨⟩)
      | some a =>
          refine ⟨.closing a, ⟨?_, hinv.2.keep rfl (steady_call hok) trivial⟩, Outline.Wp.bind ?_⟩
          · rw [Function.comp_update]
            exact hinv.1.call_destroy hb (congrArg Life.base hidle) hok
          · refine safe_destroy rfl ?_ ?_ ?_ ?_
            · exact final_failed rfl (by decide) (Or.inl ⟨by decide, rfl⟩)
            · exact final_failed rfl (by decide) (Or.inl ⟨by decide, rfl⟩)
            · exact final_failed rfl (by decide) (Or.inr ⟨rfl, rfl⟩)
            · refine final_of_base (Thread.final_idle ?_ ?_) fun _ _ _ _ hne => absurd rfl hne
              · exact fun _ _ => if_neg fun hand => hand.2 rfl
              · exact fun _ _ h => TtError.noConfusion (TableVal.err.inj h)

end Functions

/-! ### Runs -/

variable [DecidableEq H] [DecidableEq τ]

/-- After one `tt_thread_init`, as long as no join is stale, the records tell of their threads. -/
theorem extra_of_reach {t₀ : τ} {s₀ : ThreadState N H} {es : List (threadSig H).Done}
    (hinit : (threadMachine N H τ).Run t₀ ttThreadInit .zero es .success s₀)
    {pl : Pool (threadSig H) τ (ThreadState N H) (ThreadCall H) TableVal}
    (h : (threadSys N H τ).Reach Owned s₀ pl) (hstale : ¬ Stale pl.view.trace) :
    ∃ G, Thread.Inv pl.view G ∧ (∀ a, Known pl.view a → Tells pl.view a) ∧
      ∀ a, Lists pl.view a := by
  obtain rfl := Thread.init_zero hinit
  have hstart : ∃ G, (outline N H τ).inv (.start .zero) G ∧ ∀ t, (outline N H τ).idle (G t) := by
    refine ⟨fun _ => .idle, ⟨Thread.inv_zero, fun _ => trivial, ?_, ?_⟩, fun _ => rfl⟩
    · intro a hknown
      exact absurd rfl hknown
    · intro a
      refine ⟨nofun, ?_⟩
      rintro ⟨i, hi⟩
      cases hi
  obtain ⟨G, ⟨hbase, hextra⟩, -⟩ := Outline.sound hstart safe_call h
    fun hstop => hstop.elim (fun h => h) hstale
  exact ⟨_, hbase, hextra.tells, hextra.lists⟩

end ThreadLife

end TinyTools
