/-
What the thread functions do with the memory of the records.

None is forgotten: a record that is allocated is the clients' to use, or a create in
progress has allocated it, or a destroy in progress is to free it.  And the functions
keep to records that are allocated, but for a join, which may not have come to its record
before a destroy frees it.

Both are said of the ghosts that `Proofs/Thread/Invariant.lean` has: a thread has in hand
what it has allocated and not handed out, or is destroying.  The functions of the table
are single steps here, the lookup too, which `Proofs/Thread/Linked.lean` does not take
apart.
-/
import TinyTools.Proofs.Thread.Table

namespace TinyTools

open Interleave

namespace ThreadMemory

open Thread (ThreadEvent ThreadView Ghost Inv InTable Lost Owned Quiet ledger ledgerStep ledger_snoc)

variable {N : Nat} {H τ : Type}

/-! ### What is kept -/

/-- The primitives that read, write or free the record at `a`. -/
def Accesses (s : ThreadState N H) (a : Addr) : (threadSig H).Op → Prop
  | .inl (.write p _) | .inl (.readState p) | .inl (.readIsActive p) | .inl (.readHandle p)
  | .inl (.free p) | .inl (.pthreadCreate p _ _ _) => p = a
  | .inr (.findByHandle _) => InTable s a
  | _ => False

/-- In its call in progress `t` has allocated the record at `a`, or is destroying it. -/
def InHands (v : ThreadView N H τ) (t : τ) (a : Addr) : Prop :=
  ∃ id c, v.calls t = some (id, c) ∧
    (c = .destroy (some a) ∨ .prim id t (.inl .malloc) (some a) ∈ v.trace)

/-- A join of the record at `a`, which a destroy has been called for since. -/
def Outlives (v : ThreadView N H τ) (c : ThreadCall H) (a : Addr) : Prop :=
  c = .join (some a) ∧ ledger v.trace a ≠ .handed

structure Accounted (v : ThreadView N H τ) (G : τ → Ghost) : Prop where
  held : ∀ a, v.shared.mem a ≠ none → ledger v.trace a = .handed ∨ ∃ t, (G t).owns = some a
  hands : ∀ t a, (G t).owns = some a → InHands v t a

/-- What must hold whenever a thread is about to perform a primitive. -/
def Guarded (v : ThreadView N H τ) (t : τ) (p : (threadSig H).Op) : Prop :=
  ∀ id c, v.calls t = some (id, c) → ∀ a, Accesses v.shared a p →
    (v.shared.mem a ≠ none ∨ Outlives v c a) ∧ (p = .inl (.free a) → ledger v.trace a ≠ .handed)

def outline (N : Nat) (H τ : Type) :
    Outline (threadSig H) τ (ThreadState N H) (ThreadCall H) TableVal Ghost :=
  (Thread.outline N H τ).demand Guarded Accounted

/-- What is yet to be handed out, and what is handed out, is allocated. -/
theorem mem_of_handed {v : ThreadView N H τ} {G : τ → Ghost} (h : Inv v G) {a : Addr}
    (ha : ledger v.trace a = .handed) : v.shared.mem a ≠ none := by
  rcases (h.handed a ha).1 with hin | hlost
  · exact (hin.stored h.sound).mem
  · exact (h.lost a hlost).1

/-! ### One step -/

/-- What `p`, answered by `r`, does to what its thread has in hand. -/
structure Minds (p : (threadSig H).Op) (r : (threadSig H).Res p) (g g' : Ghost) : Prop where
  keeps : ∀ a, g.owns = some a →
    g'.owns = some a ∨ p = .inl (.free a) ∨ ∃ w, p = .inl (.writeVar w a)
  gains : ∀ a, g'.owns = some a →
    g.owns = some a ∨ (⟨p, r⟩ : (threadSig H).Done) = ⟨.inl .malloc, some a⟩
  malloc : ∀ a, (⟨p, r⟩ : (threadSig H).Done) = ⟨.inl .malloc, some a⟩ → g'.owns = some a

theorem Minds.same {p : (threadSig H).Op} {r : (threadSig H).Res p} {g g' : Ghost}
    (hp : p ≠ .inl .malloc) (howns : g'.owns = g.owns) : Minds p r g g' :=
  ⟨fun _ ha => Or.inl (howns.trans ha), fun _ ha => Or.inl (howns.symm.trans ha),
    fun _ heq => absurd (congrArg Sigma.fst heq) hp⟩

section Steps

variable [DecidableEq H]

/-- Only `malloc` allocates a record, and `free` frees it. -/
theorem allocated_of_exec {x : ThreadChoice H} {t : τ} {p : (threadSig H).Op} {s s' : ThreadState N H}
    {r : (threadSig H).Res p} (hexec : (threadMachine N H τ).exec x t p s = some (r, s')) {a : Addr}
    (ha : s'.mem a ≠ none) : (s.mem a ≠ none ∧ p ≠ .inl (.free a)) ∨
      (⟨p, r⟩ : (threadSig H).Done) = ⟨.inl .malloc, some a⟩ := by
  have hset : ∀ b (f : TtThread H → TtThread H),
      (s.setMem b ((s.mem b).map f)).mem a ≠ none → s.mem a ≠ none := by
    intro b f hb
    by_cases hab : a = b
    · subst hab
      simpa using hb
    · rwa [s.setMem_mem_of_ne hab] at hb
  have hreap : ∀ {status : OsStatus} {handle : Option H} {ok : Bool},
      reapExec status x handle s = (ok, s') → s.mem a ≠ none := by
    intro status handle ok h
    rcases reapExec_cases h with ⟨-, rfl⟩ | ⟨h', -, -, -, rfl⟩ <;> exact ha
  rcases p with p | p
  · cases p with
    | malloc =>
        rcases threadOpExec_malloc hexec with ⟨-, rfl⟩ | ⟨b, r', -, rfl, rfl⟩
        · exact Or.inl ⟨ha, nofun⟩
        · by_cases hab : a = b
          · subst hab
            exact Or.inr rfl
          · rw [s.setMem_mem_of_ne hab] at ha
            exact Or.inl ⟨ha, nofun⟩
    | free b =>
        cases hexec
        have hab : a ≠ b := by
          rintro rfl
          simp at ha
        rw [s.setMem_mem_of_ne hab] at ha
        exact Or.inl ⟨ha, fun heq => hab (by cases heq; rfl)⟩
    | write b w =>
        cases hexec
        exact Or.inl ⟨hset b _ ha, nofun⟩
    | readState b | readIsActive b | readHandle b =>
        rw [(readExec_cases hexec).1] at ha
        exact Or.inl ⟨ha, nofun⟩
    | pthreadAttrInit =>
        rw [threadOpExec_attr (Or.inl rfl) hexec] at ha
        exact Or.inl ⟨ha, nofun⟩
    | pthreadAttrSetstacksize n =>
        rw [threadOpExec_attr (Or.inr ⟨n, rfl⟩) hexec] at ha
        exact Or.inl ⟨ha, nofun⟩
    | pthreadAttrDestroy | writeVar w b =>
        cases hexec
        exact Or.inl ⟨ha, nofun⟩
    | pthreadCreate b stackSize func arg =>
        rcases threadOpExec_pthreadCreate hexec with ⟨-, rfl⟩ | ⟨h, -, -, rfl⟩
        · exact Or.inl ⟨ha, nofun⟩
        · exact Or.inl ⟨hset b _ ha, nofun⟩
    | pthreadJoin handle | pthreadDetach handle => exact Or.inl ⟨hreap (Option.some.inj hexec), nofun⟩
  · cases p <;> cases hexec <;> exact Or.inl ⟨ha, nofun⟩

omit [DecidableEq H] in
/-- A record stays handed out until it is freed. -/
theorem handed_prim {v : ThreadView N H τ} {id : Nat} {t : τ} {p : (threadSig H).Op}
    {r : (threadSig H).Res p} {s : ThreadState N H} {a : Addr} (h : ledger v.trace a = .handed)
    (hp : p ≠ .inl (.free a)) : ledger (v.prim id t p r s).trace a = .handed := by
  rw [View.prim_trace, ledger_snoc, h]
  rcases p with p | p
  · cases p with
    | free b => exact if_neg fun heq => hp (by rw [heq])
    | writeVar w b => exact ite_self _
    | _ => rfl
  · rfl

variable [DecidableEq τ] {t : τ} {id : Nat} {c : ThreadCall H} {β : Type} {Q : β → Ghost → Prop}

theorem Accounted.prim {v : ThreadView N H τ} {G : τ → Ghost} (h : Accounted v G)
    (hc : v.calls t = some (id, c)) {x : ThreadChoice H} {p : (threadSig H).Op}
    {r : (threadSig H).Res p} {s : ThreadState N H} {g' : Ghost}
    (hexec : (threadMachine N H τ).exec x t p v.shared = some (r, s)) (hminds : Minds p r (G t) g') :
    Accounted (v.prim id t p r s) (Function.update G t g') := by
  refine ⟨?_, ?_⟩
  · intro a ha
    rcases allocated_of_exec hexec ha with ⟨hmem, hfree⟩ | hmalloc
    · rcases h.held a hmem with hhanded | ⟨u, hu⟩
      · exact Or.inl (handed_prim hhanded hfree)
      · by_cases hut : u = t
        · subst hut
          rcases hminds.keeps a hu with hown | hfreed | ⟨w, rfl⟩
          · exact Or.inr ⟨u, by rwa [Function.update_self]⟩
          · exact absurd hfreed hfree
          · -- it is handed out by this step
            refine Or.inl ?_
            rw [View.prim_trace, ledger_snoc]
            exact if_pos rfl
        · exact Or.inr ⟨u, by rwa [Function.update_of_ne hut]⟩
    · exact Or.inr ⟨t, by rw [Function.update_self]; exact hminds.malloc a hmalloc⟩
  · intro u a hu
    have hold : (G u).owns = some a → InHands (v.prim id t p r s) u a := by
      intro hown
      obtain ⟨id', c', hcall, hwhy⟩ := h.hands u a hown
      exact ⟨id', c', hcall, hwhy.imp_right (List.mem_append_left _)⟩
    by_cases hut : u = t
    · subst hut
      rw [Function.update_self] at hu
      rcases hminds.gains a hu with hown | hmalloc
      · exact hold hown
      · cases hmalloc
        exact ⟨id, c, hc, Or.inr (List.mem_append_right _ (.head _))⟩
    · rw [Function.update_of_ne hut] at hu
      exact hold hu

/-- The program `m`, in call `c`, from ghost `g`. -/
abbrev Safe (N : Nat) (t : τ) (id : Nat) (c : ThreadCall H) (m : Prog (threadSig H) β)
    (Q : β → Ghost → Prop) (g : Ghost) : Prop :=
  (outline N H τ).Wp (threadSys N H τ).toMachine t id c m Q g

/-- A primitive accesses what its thread has in hand, what it joins, or what is in the table. -/
def Reaches (c : ThreadCall H) (g : Ghost) (p : (threadSig H).Op) : Prop :=
  ∀ {N : Nat} (s : ThreadState N H) a, Accesses s a p →
    g.owns = some a ∨ p ≠ .inl (.free a) ∧ (c = .join (some a) ∨ InTable s a)

theorem safe_step {p : (threadSig H).Op} {k : (threadSig H).Res p → Prog (threadSig H) β} {g : Ghost}
    {R : (threadSig H).Res p → Ghost → Prop} (hO : Thread.Safe N t id c (.step p .ret) R g)
    (hreaches : Reaches c g p) (hminds : ∀ r g', R r g' → Minds p r g g')
    (hk : ∀ r g', R r g' → Safe N t id c (k r) Q g') : Safe N t id c (.step p k) Q g := by
  refine Outline.Wp.demand (fun _ _ => rfl) hO ?_ hk
  intro v G _ hinv hextra hgt hc
  subst hgt
  refine ⟨?_, fun x r s g' hexec hR => hextra.prim hc hexec (hminds r g' hR)⟩
  intro id' c' hc' a ha
  rw [hc] at hc'
  cases hc'
  rcases hreaches v.shared a ha with hown | ⟨hfree, hwhy⟩
  · exact ⟨Or.inl (hinv.mem_of_owns hown), fun _ hhanded => (hinv.handed a hhanded).2 t hown⟩
  · refine ⟨?_, fun heq => absurd heq hfree⟩
    rcases hwhy with hjoin | hin
    · by_cases hhanded : ledger v.trace a = .handed
      · exact Or.inl (mem_of_handed hinv hhanded)
      · exact Or.inr ⟨hjoin, hhanded⟩
    · exact Or.inl (hin.stored hinv.sound).mem

/-! ### The steps of the functions -/

theorem safe_quiet {p : (threadSig H).Op} {k : (threadSig H).Res p → Prog (threadSig H) β} {g : Ghost}
    (hp : Quiet p) (hreaches : Reaches c g p) (hk : ∀ r, Safe N t id c (k r) Q g) :
    Safe N t id c (.step p k) Q g := by
  have hmalloc : p ≠ .inl .malloc := by
    rintro rfl
    exact hp
  refine safe_step (R := fun _ g' => g' = g) (Thread.safe_quiet hp fun _ => rfl) hreaches ?_ ?_
  · rintro r _ rfl
    exact Minds.same hmalloc rfl
  · rintro r _ rfl
    exact hk r

/-- A write to the record in hand. -/
theorem safe_write {a : Addr} {w : RecordWrite} {k : Unit → Prog (threadSig H) β} {g : Ghost}
    (hg : g.owns = some a) (hk : Safe N t id c (k ()) Q g) :
    Safe N t id c (.step (.inl (.write a w)) k) Q g :=
  safe_quiet trivial (fun _ _ ha => Or.inl (hg.trans (congrArg some ha))) fun _ => hk

theorem safe_malloc {k : Option Addr → Prog (threadSig H) β}
    (hnone : Safe N t id c (k none) Q .idle)
    (hsome : ∀ a, Safe N t id c (k (some a)) Q (.making a)) :
    Safe N t id c (.step (.inl .malloc) k) Q .idle := by
  refine safe_step (R := fun r g' => (r = none ∧ g' = .idle) ∨ ∃ a, r = some a ∧ g' = .making a)
    (Thread.safe_malloc (Or.inl ⟨rfl, rfl⟩) fun a => Or.inr ⟨a, rfl, rfl⟩) (fun _ _ => nofun) ?_ ?_
  · rintro _ _ (⟨rfl, rfl⟩ | ⟨a, rfl, rfl⟩)
    · exact ⟨nofun, nofun, nofun⟩
    · refine ⟨nofun, fun b hb => Or.inr ?_, fun b hb => ?_⟩
      · cases hb
        rfl
      · cases hb
        rfl
  · rintro _ _ (⟨rfl, rfl⟩ | ⟨a, rfl, rfl⟩)
    · exact hnone
    · exact hsome a

theorem safe_pthreadCreate {a : Addr} {stackSize : Option Nat} {func : Addr} {arg : Option Addr}
    {k : Bool → Prog (threadSig H) β} (hfailed : Safe N t id c (k false) Q (.making a))
    (hstarted : Safe N t id c (k true) Q (.started a)) :
    Safe N t id c (.step (.inl (.pthreadCreate a stackSize func arg)) k) Q (.making a) := by
  refine safe_step (R := fun r g' => (r = false ∧ g' = .making a) ∨ (r = true ∧ g' = .started a))
    (Thread.safe_pthreadCreate (Or.inl ⟨rfl, rfl⟩) (Or.inr ⟨rfl, rfl⟩))
    (fun _ _ ha => Or.inl (congrArg some ha)) ?_ ?_
  · rintro _ _ (⟨rfl, rfl⟩ | ⟨rfl, rfl⟩) <;> exact Minds.same nofun rfl
  · rintro _ _ (⟨rfl, rfl⟩ | ⟨rfl, rfl⟩)
    · exact hfailed
    · exact hstarted

theorem safe_register {a : Addr} {k : TtError → Prog (threadSig H) β}
    (hregistered : Safe N t id c (k .success) Q (.registered a))
    (hfull : Safe N t id c (k .notFound) Q (.started a)) :
    Safe N t id c (.step (.inr (.register (some a))) k) Q (.started a) := by
  refine safe_step (p := .inr (.register (some a)))
    (R := fun r g' => (r = .success ∧ g' = .registered a) ∨ (r = .notFound ∧ g' = .started a))
    (Thread.safe_register (Or.inl ⟨rfl, rfl⟩) (Or.inr ⟨rfl, rfl⟩)) (fun _ _ => nofun) ?_ ?_
  · rintro _ _ (⟨rfl, rfl⟩ | ⟨rfl, rfl⟩) <;> exact Minds.same nofun rfl
  · rintro _ _ (⟨rfl, rfl⟩ | ⟨rfl, rfl⟩)
    · exact hregistered
    · exact hfull

theorem safe_writeVar {w a : Addr} {k : Unit → Prog (threadSig H) β}
    (hk : Safe N t id c (k ()) Q .idle) :
    Safe N t id c (.step (.inl (.writeVar w a)) k) Q (.registered a) := by
  refine safe_step (R := fun _ g' => g' = .idle) (Thread.safe_writeVar rfl) (fun _ _ => nofun) ?_ ?_
  · rintro r _ rfl
    refine ⟨fun b hb => Or.inr (Or.inr ⟨w, ?_⟩), nofun, nofun⟩
    cases hb
    rfl
  · rintro r _ rfl
    exact hk

theorem safe_free {a : Addr} {g : Ghost} (hg : g = .making a ∨ g = .started a ∨ g = .removed a)
    {k : Unit → Prog (threadSig H) β} (hk : Safe N t id c (k ()) Q .idle) :
    Safe N t id c (.step (.inl (.free a)) k) Q g := by
  have howns : g.owns = some a := by
    rcases hg with rfl | rfl | rfl <;> rfl
  refine safe_step (R := fun _ g' => g' = .idle) (Thread.safe_free hg rfl)
    (fun _ _ ha => Or.inl (howns.trans (congrArg some ha))) ?_ ?_
  · rintro r _ rfl
    refine ⟨fun b hb => Or.inr (Or.inl ?_), nofun, nofun⟩
    rw [howns] at hb
    cases hb
    rfl
  · rintro r _ rfl
    exact hk

theorem safe_unregister_started {a : Addr} {k : TtError → Prog (threadSig H) β}
    (hk : Safe N t id c (k .notFound) Q (.started a)) :
    Safe N t id c (.step (.inr (.unregister (some a))) k) Q (.started a) := by
  refine safe_step (p := .inr (.unregister (some a)))
    (R := fun r g' => r = .notFound ∧ g' = .started a)
    (Thread.safe_unregister_started ⟨rfl, rfl⟩) (fun _ _ => nofun) ?_ ?_
  · rintro _ _ ⟨rfl, rfl⟩
    exact Minds.same nofun rfl
  · rintro _ _ ⟨rfl, rfl⟩
    exact hk

theorem safe_unregister {a : Addr} {k : TtError → Prog (threadSig H) β} (hc : c = .destroy (some a))
    (hremoved : Safe N t id c (k .success) Q (.removed a))
    (hnotFound : Safe N t id c (k .notFound) Q (.closing a)) :
    Safe N t id c (.step (.inr (.unregister (some a))) k) Q (.closing a) := by
  refine safe_step (p := .inr (.unregister (some a)))
    (R := fun r g' => (r = .success ∧ g' = .removed a) ∨ (r = .notFound ∧ g' = .closing a))
    (Thread.safe_unregister hc (Or.inl ⟨rfl, rfl⟩) (Or.inr ⟨rfl, rfl⟩)) (fun _ _ => nofun) ?_ ?_
  · rintro _ _ (⟨rfl, rfl⟩ | ⟨rfl, rfl⟩) <;> exact Minds.same nofun rfl
  · rintro _ _ (⟨rfl, rfl⟩ | ⟨rfl, rfl⟩)
    · exact hremoved
    · exact hnotFound

/-! ### The functions -/

theorem safe_platformCreate {a func : Addr} {attr : Option TtThreadAttr} {arg : Option Addr}
    {Q : TtError → Ghost → Prop} (hfailed : Q .threadCreate (.making a))
    (hstarted : Q .success (.started a)) :
    Safe N t id c (ttPlatformThreadCreate (some a) attr (some func) arg) Q (.making a) := by
  refine Thread.wp_platformCreate ?_ ?_ hfailed
  · rintro p k (rfl | ⟨n, rfl⟩ | rfl) hk
    all_goals exact safe_quiet trivial (fun _ _ => nofun) hk
  · intro stackSize
    refine safe_write rfl (safe_pthreadCreate ?_ ?_)
    · exact safe_quiet trivial (fun _ _ => nofun) fun _ => hfailed
    · exact safe_quiet trivial (fun _ _ => nofun) fun _ => hstarted

theorem safe_rollback {a : Addr} {Q : TtError → Ghost → Prop} (hQ : ∀ e, Q e (.started a)) :
    Safe N t id c (ttPlatformThreadDestroy (some a)) Q (.started a) := by
  refine safe_quiet trivial (fun _ _ ha => Or.inl (congrArg some ha)) fun state => ?_
  show Safe N t id c (if state ≠ .terminated then .ret .threadActive else _) Q (.started a)
  split
  · exact hQ .threadActive
  · exact safe_unregister_started (hQ .notFound)

theorem safe_create {thread : Option Addr} {attr : Option TtThreadAttr} {func arg : Option Addr}
    {Q : TtError → Ghost → Prop} (hQ : ∀ e, Q e .idle) :
    Safe N t id c (ttThreadCreate thread attr func arg) Q .idle := by
  cases thread with
  | none => exact hQ .nullPointer
  | some w =>
  cases func with
  | none => exact hQ .nullPointer
  | some func =>
  refine safe_malloc (hQ .memory) fun a => ?_
  refine safe_write rfl (safe_write rfl (safe_write rfl (safe_write rfl (safe_write rfl (safe_write rfl
    (safe_write rfl ?_))))))
  refine Outline.Wp.bind (safe_platformCreate ?_ ?_)
  · exact safe_free (Or.inl rfl) (hQ .threadCreate)
  · refine safe_register ?_ ?_
    · exact safe_writeVar (hQ .success)
    · refine Outline.Wp.bind (safe_rollback fun _ => ?_)
      exact safe_free (Or.inr (Or.inl rfl)) (hQ .notFound)

theorem safe_join {a : Addr} {Q : TtError → Ghost → Prop} (hc : c = .join (some a))
    (hQ : ∀ e, Q e .idle) : Safe N t id c (ttThreadJoin (some a)) Q .idle := by
  have hread : Reaches c .idle (.inl (.readHandle a)) := fun _ b hb =>
    Or.inr ⟨nofun, Or.inl (hc.trans (congrArg _ (congrArg some hb)))⟩
  have hwrite : ∀ w, Reaches c .idle (.inl (.write a w)) := fun _ _ _ b hb =>
    Or.inr ⟨nofun, Or.inl (hc.trans (congrArg _ (congrArg some hb)))⟩
  refine safe_quiet trivial hread fun handle => ?_
  refine safe_quiet trivial (fun _ _ => nofun) fun ok => ?_
  cases ok with
  | false => exact hQ .threadJoin
  | true =>
      exact safe_quiet trivial (hwrite _) fun _ => safe_quiet trivial (hwrite _) fun _ => hQ .success

theorem safe_destroy {a : Addr} {Q : TtError → Ghost → Prop} (hc : c = .destroy (some a))
    (hactive : Q .threadActive (.closing a)) (hnotFound : Q .notFound (.closing a))
    (hdetach : Q .threadDetach (.removed a)) (hsuccess : Q .success .idle) :
    Safe N t id c (ttThreadDestroy (some a)) Q (.closing a) := by
  have hfree : Safe N t id c (.step (.inl (.free a)) fun _ => .ret .success) Q (.removed a) :=
    safe_free (Or.inr (Or.inr rfl)) hsuccess
  refine safe_quiet trivial (fun _ _ ha => Or.inl (congrArg some ha)) fun state => ?_
  show Safe N t id c (if state ≠ .terminated then .ret .threadActive else _) Q (.closing a)
  split
  · exact hactive
  · refine safe_unregister hc ?_ hnotFound
    refine safe_quiet trivial (fun _ _ ha => Or.inl (congrArg some ha)) fun isActive => ?_
    cases isActive with
    | false => exact hfree
    | true =>
        refine safe_quiet trivial (fun _ _ ha => Or.inl (congrArg some ha)) fun handle => ?_
        refine safe_quiet trivial (fun _ _ => nofun) fun ok => ?_
        cases ok with
        | false => exact hdetach
        | true => exact safe_write rfl hfree

/-! ### Calls and returns -/

omit [DecidableEq H] in
theorem Accounted.call {v : ThreadView N H τ} {G : τ → Ghost} (h : Accounted v G)
    (hidle : G t = .idle) {g : Ghost} (hledger : ∀ a st,
      ledgerStep a st (.call v.next t c : ThreadEvent H τ) = st ∨ g.owns = some a)
    (hg : ∀ a, g.owns = some a → c = .destroy (some a)) :
    Accounted (v.call t c) (Function.update G t g) := by
  refine ⟨?_, ?_⟩
  · intro a ha
    rcases hledger a (ledger v.trace a) with hsame | hown
    · rw [View.call_trace, ledger_snoc, hsame]
      refine (h.held a ha).imp_right ?_
      rintro ⟨u, hu⟩
      have hut : u ≠ t := by
        rintro rfl
        rw [hidle] at hu
        cases hu
      exact ⟨u, by rwa [Function.update_of_ne hut]⟩
    · exact Or.inr ⟨t, by rwa [Function.update_self]⟩
  · intro u a hu
    by_cases hut : u = t
    · subst hut
      rw [Function.update_self] at hu
      exact ⟨v.next, c, by simp, Or.inl (hg a hu)⟩
    · rw [Function.update_of_ne hut] at hu
      obtain ⟨id', c', hcall, hwhy⟩ := h.hands u a hu
      exact ⟨id', c', by simpa [hut] using hcall, hwhy.imp_right (List.mem_append_left _)⟩

omit [DecidableEq H] in
/-- A call that returns has nothing in hand, or gives it back. -/
theorem final_of {a : TableVal} {g : Ghost} (hO : (Thread.outline N H τ).Final t id c a g)
    (hback : ∀ b, g.owns = some b → c = .destroy (some b) ∧ a ≠ .err .success) :
    (outline N H τ).Final t id c a g := by
  refine Outline.Final.demand hO ?_
  intro v G g' _ h hgt _ hidle _
  subst hgt
  subst hidle
  refine ⟨?_, ?_⟩
  · intro b hb
    rw [View.ret_trace, ledger_snoc]
    rcases h.held b hb with hhanded | ⟨u, hu⟩
    · rw [hhanded]
      left
      cases c with
      | destroy thread => exact ite_self _
      | init | create thread attr func arg | join thread | findByHandle handle => rfl
    · by_cases hut : u = t
      · subst hut
        obtain ⟨rfl, hne⟩ := hback b hu
        exact Or.inl (if_pos ⟨rfl, hne⟩)
      · exact Or.inr ⟨u, by rwa [Function.update_of_ne hut]⟩
  · intro u b hu
    have hut : u ≠ t := by
      rintro rfl
      rw [Function.update_self] at hu
      cases hu
    rw [Function.update_of_ne hut] at hu
    obtain ⟨id', c', hcall, hwhy⟩ := h.hands u b hu
    exact ⟨id', c', by simpa [hut] using hcall, hwhy.imp_right (List.mem_append_left _)⟩

/-- A call keeps the records accounted for from beginning to end. -/
theorem safe_call (v : ThreadView N H τ) (G : τ → Ghost) (t : τ) (c : ThreadCall H) (hb : Books v)
    (hinv : Inv v G ∧ Accounted v G) (_ : v.calls t = none) (hidle : G t = .idle)
    (hok : Owned v t c) (_ : ¬ (outline N H τ).stop (v.call t c).trace) :
    ∃ g, (Inv (v.call t c) (Function.update G t g) ∧ Accounted (v.call t c) (Function.update G t g)) ∧
      Safe N t v.next c ((threadSys N H τ).body c) ((outline N H τ).Final t v.next c) g := by
  have hquiet : (∀ a st, ledgerStep a st (.call v.next t c : ThreadEvent H τ) = st) →
      Inv (v.call t c) (Function.update G t .idle) ∧
        Accounted (v.call t c) (Function.update G t .idle) := by
    intro hledger
    refine ⟨?_, hinv.2.call hidle (fun a st => Or.inl (hledger a st)) (by rintro a ⟨⟩)⟩
    rw [← hidle, Function.update_eq_self]
    exact hinv.1.call hidle hledger
  have hreturned : ∀ {a : TableVal}, (∀ b, c = .destroy (some b) → a = .err .success) →
      (outline N H τ).Final t v.next c a .idle := by
    intro a ha
    refine final_of (Thread.final_idle ?_ ?_) (by rintro b ⟨⟩)
    · intro b st
      cases c with
      | destroy thread =>
          refine if_neg ?_
          rintro ⟨rfl, hne⟩
          exact hne (ha b rfl)
      | init | create thread attr func arg | join thread | findByHandle handle => rfl
    · intro b hb
      rw [ha b hb]
      rintro ⟨⟩
  cases c with
  | init => exact hok.elim
  | create thread attr func arg =>
      refine ⟨.idle, hquiet fun _ _ => rfl, ?_⟩
      exact Outline.Wp.bind (safe_create fun e => hreturned (by rintro b ⟨⟩))
  | join thread =>
      refine ⟨.idle, hquiet fun _ _ => rfl, ?_⟩
      cases thread with
      | none => exact hreturned (by rintro b ⟨⟩)
      | some a => exact Outline.Wp.bind (safe_join rfl fun e => hreturned (by rintro b ⟨⟩))
  | findByHandle handle =>
      refine ⟨.idle, hquiet fun _ _ => rfl, ?_⟩
      exact safe_quiet trivial (fun _ _ ha => Or.inr ⟨by rintro ⟨⟩, Or.inr ha⟩)
        fun thread => hreturned (by rintro b ⟨⟩)
  | destroy thread =>
      cases thread with
      | none =>
          refine ⟨.idle, hquiet fun b st => by simp [ledgerStep], ?_⟩
          exact hreturned (by rintro b ⟨⟩)
      | some a =>
          refine ⟨.closing a, ⟨hinv.1.call_destroy hb hidle hok, hinv.2.call hidle ?_ ?_⟩,
            Outline.Wp.bind ?_⟩
          · intro b st
            by_cases hab : a = b
            · exact Or.inr (congrArg some hab)
            · exact Or.inl (if_neg fun heq => hab (Option.some.inj heq))
          · rintro b hab
            cases hab
            rfl
          · refine safe_destroy rfl ?_ ?_ ?_ (hreturned fun _ _ => rfl)
            · exact final_of (Thread.final_failed rfl (by rintro ⟨⟩) (Or.inl ⟨by rintro ⟨⟩, rfl⟩))
                fun b hb => ⟨by cases hb; rfl, by rintro ⟨⟩⟩
            · exact final_of (Thread.final_failed rfl (by rintro ⟨⟩) (Or.inl ⟨by rintro ⟨⟩, rfl⟩))
                fun b hb => ⟨by cases hb; rfl, by rintro ⟨⟩⟩
            · exact final_of (Thread.final_failed rfl (by rintro ⟨⟩) (Or.inr ⟨rfl, rfl⟩))
                fun b hb => ⟨by cases hb; rfl, by rintro ⟨⟩⟩

omit [DecidableEq H] [DecidableEq τ] in
theorem accounted_zero : Inv (View.start .zero : ThreadView N H τ) (fun _ => .idle) ∧
    Accounted (View.start .zero : ThreadView N H τ) fun _ => .idle :=
  ⟨Thread.inv_zero, fun _ ha => absurd rfl ha, nofun⟩

end Steps

/-! ### Runs -/

section Runs

variable [DecidableEq H] [DecidableEq τ]
  {pl : Pool (threadSig H) τ (ThreadState N H) (ThreadCall H) TableVal}

theorem guarded_of_reach (h : (threadSys N H τ).Reach Owned .zero pl) {t : τ} {id : Nat}
    {c : ThreadCall H} {p : (threadSig H).Op} {k : (threadSig H).Res p → Prog (threadSig H) TableVal}
    (hc : pl.view.calls t = some (id, c)) (hp : pl.prog t = some (.step p k)) {a : Addr}
    (ha : Accesses pl.view.shared a p) : (pl.view.shared.mem a ≠ none ∨ Outlives pl.view c a) ∧
      (p = .inl (.free a) → ledger pl.view.trace a ≠ .handed) :=
  ((outline N H τ).sound_pre ⟨fun _ => .idle, accounted_zero, fun _ => rfl⟩ safe_call h
    (fun hstop => hstop) hc hp).2 id c hc a ha

/-- After join `id` of the record at `a` was called, so was a destroy of it. -/
def Overtaken (tr : List (ThreadEvent H τ)) (id : Nat) (t : τ) (a : Addr) : Prop :=
  ∃ tr₁ tr₂ id' u, tr = tr₁ ++ .call id' u (.destroy (some a)) :: tr₂ ∧
    .call id t (.join (some a)) ∈ tr₁

omit [DecidableEq H] [DecidableEq τ] in
theorem Overtaken.snoc {tr : List (ThreadEvent H τ)} {id : Nat} {t : τ} {a : Addr}
    (h : Overtaken tr id t a) (e : ThreadEvent H τ) : Overtaken (tr ++ [e]) id t a := by
  obtain ⟨tr₁, tr₂, id', u, rfl, hjoin⟩ := h
  exact ⟨tr₁, tr₂ ++ [e], id', u, by simp, hjoin⟩

/-- A record that is being joined is the clients' until a destroy of it is called. -/
theorem joined_of_reach (h : (threadSys N H τ).Reach Owned .zero pl) {t : τ} {id : Nat} {a : Addr}
    (hc : pl.view.calls t = some (id, .join (some a))) :
    ledger pl.view.trace a = .handed ∨ Overtaken pl.view.trace id t a := by
  induction h generalizing t id a with
  | start => cases hc
  | @step pl pl' hreach l hok hstep ih =>
      cases l with
      | call u c =>
          obtain ⟨hnone, rfl⟩ := Sys.step_call hstep
          by_cases hut : t = u
          · subst hut
            obtain ⟨-, rfl⟩ : pl.view.next = id ∧ c = .join (some a) := by simpa using hc
            refine Or.inl ?_
            show ledger (pl.view.trace ++ [_]) a = .handed
            rw [ledger_snoc]
            exact hok
          · have hbefore : pl.view.calls t = some (id, .join (some a)) := by simpa [hut] using hc
            rcases ih hbefore with hhanded | hover
            · show ledger (pl.view.trace ++ [_]) a = .handed ∨ Overtaken (pl.view.trace ++ [_]) id t a
              by_cases hdestroy : c = .destroy (some a)
              · subst hdestroy
                exact Or.inr ⟨pl.view.trace, [], _, u, rfl, hreach.books.called t id _ hbefore⟩
              · refine Or.inl ?_
                rw [ledger_snoc, hhanded]
                cases c with
                | destroy thread => exact if_neg fun heq => hdestroy (congrArg _ heq)
                | init | create thread attr func arg | join thread | findByHandle handle => rfl
            · exact Or.inr (hover.snoc _)
      | prim u x =>
          obtain ⟨id', c', p, k, r, s, hc', hp, hexec, rfl⟩ := Sys.step_prim hstep
          rcases ih hc with hhanded | hover
          · refine Or.inl (handed_prim hhanded ?_)
            rintro rfl
            exact (guarded_of_reach hreach hc' hp (a := a) rfl).2 rfl hhanded
          · exact Or.inr (hover.snoc _)
      | ret u =>
          obtain ⟨id', c', b, hc', -, rfl⟩ := Sys.step_ret hstep
          have hut : t ≠ u := by
            rintro rfl
            simp at hc
          have hc : pl.view.calls t = some (id, .join (some a)) := by simpa [hut] using hc
          rcases ih hc with hhanded | hover
          · refine Or.inl ?_
            show ledger (pl.view.trace ++ [_]) a = .handed
            rw [ledger_snoc, hhanded]
            cases c' with
            | destroy thread => exact ite_self _
            | init | create thread attr func arg | join thread | findByHandle handle => rfl
          · exact Or.inr (hover.snoc _)

theorem accounted_of_reach (h : (threadSys N H τ).Reach Owned .zero pl) :
    ∃ G, Inv pl.view G ∧ Accounted pl.view G ∧ ((∀ t, pl.view.calls t = none) → ∀ t, G t = .idle) := by
  obtain ⟨G, hinv, hth⟩ := (outline N H τ).sound ⟨fun _ => .idle, accounted_zero, fun _ => rfl⟩
    safe_call h fun hstop => hstop
  refine ⟨G, hinv.1, hinv.2, fun hrest t => ?_⟩
  have hidle := hth t
  simp only [Outline.Thread, hrest t] at hidle
  exact hidle

end Runs

/-- A second join of a record begins, and a destroy frees it before the join has come to it. -/
def overtaking : List (Label Nat (ThreadChoice Nat) (ThreadCall Nat)) :=
  createLabels 0 10 20 ++ .call 0 (.join (some 10)) :: List.replicate 4 (.prim 0 .ok) ++
    [.ret 0, .call 1 (.join (some 10)), .call 0 (.destroy (some 10))] ++ List.replicate 4 (.prim 0 .ok)

end ThreadMemory

open Thread (Owned InTable Lost ledger)

open ThreadMemory in
/--
**The thread functions keep to memory that is allocated.** After one `tt_thread_init`, in
every interleaving of clients that keep their promise: a record that is read, written or
freed is allocated, and so are all those that a lookup reads.  The one exception is a join
that has been overtaken by a destroy of its record.
-/
theorem ttThread_memory_safe {N : Nat} {H τ : Type} [DecidableEq H] [DecidableEq τ] {t₀ : τ}
    {s₀ : ThreadState N H} {es : List (threadSig H).Done}
    (hinit : (threadMachine N H τ).Run t₀ ttThreadInit .zero es .success s₀)
    {pl : Pool (threadSig H) τ (ThreadState N H) (ThreadCall H) TableVal}
    (h : (threadSys N H τ).Reach Owned s₀ pl) {t : τ} {id : Nat} {c : ThreadCall H}
    {p : (threadSig H).Op} {k : (threadSig H).Res p → Prog (threadSig H) TableVal}
    (hc : pl.view.calls t = some (id, c)) (hp : pl.prog t = some (.step p k)) {a : Addr}
    (ha : Accesses pl.view.shared a p) : pl.view.shared.mem a ≠ none ∨
      (c = .join (some a) ∧ Overtaken pl.view.trace id t a) := by
  obtain rfl := Thread.init_zero hinit
  refine (guarded_of_reach h hc hp ha).1.imp_right ?_
  rintro ⟨rfl, hhanded⟩
  exact ⟨rfl, (joined_of_reach h hc).resolve_left hhanded⟩

open ThreadMemory in
/-- A destroy is about to free its record; then a join that it has overtaken is about to read it. -/
theorem ttThread_memory_safe_overtaken :
    (∃ pl : Pool (threadSig Nat) Nat (ThreadState 1 Nat) (ThreadCall Nat) TableVal,
      (∃ k, pl.prog 0 = some (.step (.inl (.free 10)) k)) ∧ pl.view.shared.mem 10 ≠ none) ∧
    ∃ pl : Pool (threadSig Nat) Nat (ThreadState 1 Nat) (ThreadCall Nat) TableVal,
      (∃ k, pl.prog 1 = some (.step (.inl (.readHandle 10)) k)) ∧ pl.view.shared.mem 10 = none ∧
      Overtaken pl.view.trace 2 1 10 := by
  have hinit : (threadMachine 1 Nat Nat).Run 0 ttThreadInit .zero [⟨.inr .init, .success⟩] .success
      .zero := Machine.run_of_eval [.ok] rfl
  refine ⟨?_, ?_⟩
  · have hrun : ((threadSys 1 Nat Nat).run Owned overtaking.dropLast (Sys.start .zero)).isSome = true :=
      rfl
    exact ⟨_, ⟨_, rfl⟩, (ttThread_memory_safe hinit (Sys.Reach.run _ .start (Option.some_get hrun).symm)
      (t := 0) (a := 10) rfl rfl rfl).resolve_right nofun⟩
  · have hrun : ((threadSys 1 Nat Nat).run Owned overtaking (Sys.start .zero)).isSome = true := rfl
    exact ⟨_, ⟨_, rfl⟩, rfl, ((ttThread_memory_safe hinit
      (Sys.Reach.run _ .start (Option.some_get hrun).symm) (t := 1) (a := 10) rfl rfl
      rfl).resolve_left fun hne => hne rfl).2⟩

open ThreadMemory in
/--
**The thread functions forget no record.** After one `tt_thread_init`, in every
interleaving of clients that keep their promise: a record that is allocated is the
clients', or a call in progress has allocated it or is destroying it.  When no call is in
progress, the records that are allocated are those that the clients have, and the ones in
the table are those of them that no failed `pthread_detach` has lost.
-/
theorem ttThread_accounted {N : Nat} {H τ : Type} [DecidableEq H] [DecidableEq τ] {t₀ : τ}
    {s₀ : ThreadState N H} {es : List (threadSig H).Done}
    (hinit : (threadMachine N H τ).Run t₀ ttThreadInit .zero es .success s₀)
    {pl : Pool (threadSig H) τ (ThreadState N H) (ThreadCall H) TableVal}
    (h : (threadSys N H τ).Reach Owned s₀ pl) :
    (∀ a, pl.view.shared.mem a ≠ none → ledger pl.view.trace a = .handed ∨ ∃ t, InHands pl.view t a) ∧
    ((∀ t, pl.view.calls t = none) → ∀ a,
      (pl.view.shared.mem a ≠ none ↔ ledger pl.view.trace a = .handed) ∧
      (InTable pl.view.shared a ↔ ledger pl.view.trace a = .handed ∧ ¬ Lost pl.view.trace a)) := by
  obtain rfl := Thread.init_zero hinit
  obtain ⟨G, hinv, haccounted, hidle⟩ := accounted_of_reach h
  refine ⟨?_, fun hrest a => ?_⟩
  · intro a ha
    exact (haccounted.held a ha).imp_right fun ⟨t, ht⟩ => ⟨t, haccounted.hands t a ht⟩
  · have hmem : pl.view.shared.mem a ≠ none ↔ ledger pl.view.trace a = .handed := by
      refine ⟨fun ha => (haccounted.held a ha).resolve_right ?_, mem_of_handed hinv⟩
      rintro ⟨t, ht⟩
      rw [hidle hrest t] at ht
      cases ht
    refine ⟨hmem, fun hin => ⟨hmem.mp (hin.stored hinv.sound).mem, fun hlost => ?_⟩, ?_⟩
    · exact (hinv.lost a hlost).2.1 hin
    · rintro ⟨hhanded, hlost⟩
      exact (hinv.handed a hhanded).1.resolve_right hlost

open ThreadMemory in
/-- One record in a table of one slot: a second one is freed again, the first one is left. -/
theorem ttThread_accounted_full :
    ∃ pl : Pool (threadSig Nat) Nat (ThreadState 1 Nat) (ThreadCall Nat) TableVal,
      .ret 1 0 (.create (some 1) none (some 7) none) (.err .notFound) ∈ pl.view.trace ∧
      (∀ t, pl.view.calls t = none) ∧ InTable pl.view.shared 10 ∧
      ledger pl.view.trace 11 ≠ .handed ∧ pl.view.shared.mem 11 = none := by
  have hinit : (threadMachine 1 Nat Nat).Run 0 ttThreadInit .zero [⟨.inr .init, .success⟩] .success
      .zero := Machine.run_of_eval [.ok] rfl
  have hrun : ((threadSys 1 Nat Nat).run Owned (createLabels 0 10 20 ++
      .call 0 (.create (some 1) none (some 7) none) :: (createChoices 11 21 4).map (.prim 0) ++
        [.ret 0]) (Sys.start .zero)).isSome = true := rfl
  have hrest : ∀ t, (Option.get _ hrun).view.calls t = none
    | 0 => rfl
    | _ + 1 => rfl
  have hreach := Sys.Reach.run _ .start (Option.some_get hrun).symm
  have hlost := Thread.not_lost hreach (Thread.not_detachFailed rfl) 10
  have hfacts := (ttThread_accounted hinit hreach).2 hrest
  refine ⟨_, List.mem_of_getLast? rfl, hrest, (hfacts 10).2.mpr ⟨rfl, hlost⟩, nofun, ?_⟩
  exact Classical.not_not.mp fun hmem => nomatch (hfacts 11).1.mp hmem

end TinyTools
