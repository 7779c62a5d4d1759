/-
The thread functions keep the invariant of the records.

One lemma for each kind of step, then each function walked through once.  Most steps
are quiet: they touch neither the table nor what is allocated, and no handle.
-/
import TinyTools.Proofs.Thread.Invariant

namespace TinyTools

open Interleave

namespace Thread

variable {N : Nat} {H τ : Type}

/-! ### The steps of the functions -/

section Functions

variable [DecidableEq H]

/-- The primitives that leave the table, what is allocated and all handles alone. -/
def Quiet : (threadSig H).Op → Prop
  | .inl (.write _ _) | .inl (.readState _) | .inl (.readIsActive _) | .inl (.readHandle _)
  | .inl .pthreadAttrInit | .inl (.pthreadAttrSetstacksize _) | .inl .pthreadAttrDestroy
  | .inl (.pthreadJoin _) | .inl (.pthreadDetach _) | .inr (.findByHandle _) => True
  | _ => False

/-- What a quiet primitive does to the state. -/
structure Unchanged (s s' : ThreadState N H) : Prop where
  table : s'.table = s.table
  mem : ∀ a, s.mem a ≠ none → s'.mem a ≠ none
  stored : ∀ a, Stored s a → Stored s' a
  apart : s.os.Pairwise Apart → s'.os.Pairwise Apart

omit [DecidableEq H] in
theorem Unchanged.refl (s : ThreadState N H) : Unchanged s s :=
  ⟨rfl, fun _ h => h, fun _ h => h, fun h => h⟩

omit [DecidableEq H] in
theorem unchanged_write (s : ThreadState N H) (p : Addr) (w : RecordWrite) :
    Unchanged s (s.setMem p ((s.mem p).map (·.write w))) := by
  refine ⟨rfl, ?_, ?_, fun h => h⟩
  · intro a ha
    by_cases hap : a = p
    · subst hap
      simpa [ThreadState.setMem] using ha
    · simpa [ThreadState.setMem, hap] using ha
  · rintro a ⟨r, o, hr, ho, hhandle⟩
    by_cases hap : a = p
    · subst hap
      exact ⟨r.write w, o, by simp [ThreadState.setMem, hr], ho, by simpa using hhandle⟩
    · exact ⟨r, o, by simpa [ThreadState.setMem, hap] using hr, ho, hhandle⟩

theorem unchanged_reap (s : ThreadState N H) (h : H) (status : OsStatus) :
    Unchanged s (s.reap h status) := by
  refine ⟨rfl, fun _ ha => ha, ?_, fun hapart => apart_reap hapart h status⟩
  rintro a ⟨r, o, hr, ho, hhandle⟩
  refine ⟨r, _, hr, (s.startedFor_reap h status a).trans (congrArg (Option.map _) ho), ?_⟩
  show r.handle = some (OsThread.handle (if _ then _ else _))
  split <;> exact hhandle

theorem Quiet.unchanged {p : (threadSig H).Op} (hp : Quiet p) {t : τ} {x : ThreadChoice H}
    {s s' : ThreadState N H} {r : (threadSig H).Res p}
    (hexec : (threadMachine N H τ).exec x t p s = some (r, s')) : Unchanged s s' := by
  have hreap : ∀ {status : OsStatus} {handle : Option H} {ok : Bool},
      reapExec status x handle s = (ok, s') → Unchanged s s' := by
    intro status handle ok h
    rcases reapExec_cases h with ⟨-, rfl⟩ | ⟨h', -, -, -, rfl⟩
    · exact .refl s'
    · exact unchanged_reap s h' status
  rcases p with p | p
  · cases p with
    | write p w =>
        cases hexec
        exact unchanged_write s p w
    | readState p | readIsActive p | readHandle p =>
        rw [(readExec_cases hexec).1]
        exact .refl s
    | pthreadAttrInit =>
        rw [threadOpExec_attr (Or.inl rfl) hexec]
        exact .refl s
    | pthreadAttrSetstacksize n =>
        rw [threadOpExec_attr (Or.inr ⟨n, rfl⟩) hexec]
        exact .refl s
    | pthreadAttrDestroy =>
        cases hexec
        exact .refl s
    | pthreadJoin handle | pthreadDetach handle => exact hreap (Option.some.inj hexec)
    | _ => exact hp.elim
  · cases p with
    | findByHandle handle =>
        cases hexec
        exact .refl s
    | _ => exact hp.elim

variable [DecidableEq τ] {t : τ} {id : Nat} {c : ThreadCall H} {β : Type}
  {Q : β → Ghost → Prop}

/-- The program `m`, in call `c`, from ghost `g`. -/
abbrev Safe (N : Nat) (t : τ) (id : Nat) (c : ThreadCall H) (m : Prog (threadSig H) β)
    (Q : β → Ghost → Prop) (g : Ghost) : Prop :=
  (outline N H τ).Wp (threadSys N H τ).toMachine t id c m Q g

theorem safe_quiet {p : (threadSig H).Op} {k : (threadSig H).Res p → Prog _ β} {g : Ghost}
    (hp : Quiet p) (hk : ∀ r, Safe N t id c (k r) Q g) : Safe N t id c (.step p k) Q g := by
  refine Outline.Wp.step (fun _ _ => rfl) ?_
  intro v G _ hinv hgt _
  refine ⟨trivial, ?_⟩
  intro x r s hexec _
  have hs := hp.unchanged hexec
  refine ⟨g, ?_, hk r⟩
  rw [← hgt, Function.update_eq_self]
  refine hinv.quiet hs.table hs.mem hs.stored (hs.apart hinv.sound.apart) ?_ ?_
  · rintro a rfl
    exact hp
  · intro a
    rcases p with p | p
    · cases p with
      | free p | writeVar v p => exact hp.elim
      | _ => rfl
    · rfl

/-- `malloc` in create. -/
theorem safe_malloc {k : Option Addr → Prog (threadSig H) β}
    (hnone : Safe N t id c (k none) Q .idle)
    (hsome : ∀ a, Safe N t id c (k (some a)) Q (.making a)) :
    Safe N t id c (.step (.inl .malloc) k) Q .idle := by
  refine Outline.Wp.step (fun _ _ => rfl) ?_
  intro v G _ hinv hgt _
  refine ⟨trivial, ?_⟩
  intro x p s hexec _
  rcases threadOpExec_malloc hexec with ⟨rfl, rfl⟩ | ⟨a, r, hfree, rfl, rfl⟩
  · refine ⟨.idle, ?_, hnone⟩
    rw [← hgt, Function.update_eq_self]
    exact hinv.quiet rfl (fun _ h => h) (fun _ h => h) hinv.sound.apart nofun fun _ => rfl
  · obtain ⟨hin, hlost, howns, hunknown⟩ := hinv.not_owned hfree
    refine ⟨.making a, hinv.onRecord (a := a) ?_ (fun b hb => .setMem hb _) (fun _ _ => rfl)
      (fun u _ => howns u) ?_ ?_ hlost ?_ ?_ ?_, hsome a⟩
    · exact hinv.sound.outside hin rfl (fun b hb => Stored.setMem hb _) hinv.sound.apart
    · intro b hb
      rw [hgt] at hb
      cases hb
    · intro b hb
      cases hb
      rfl
    · refine ⟨?_, hin⟩
      rw [View.prim_shared, ThreadState.setMem_mem_self]
      exact Option.some_ne_none _
    · intro hst
      rw [hunknown] at hst
      cases hst
    · intro hst
      rw [hunknown] at hst
      cases hst

omit [DecidableEq H] [DecidableEq τ] in
/-- The record of a thread in create is nobody else's, and the clients do not know of it. -/
theorem Inv.mine {v : ThreadView N H τ} {G : τ → Ghost} (h : Inv v G) {a : Addr}
    (hg : G t = .making a ∨ G t = .started a ∨ G t = .registered a) :
    (G t).owns = some a ∧ (∀ u, u ≠ t → (G u).owns ≠ some a) ∧ ¬ Lost v.trace a ∧
      ledger v.trace a = .unknown := by
  have howns : (G t).owns = some a := by
    rcases hg with hg | hg | hg <;> rw [hg] <;> rfl
  have hclosing : G t ≠ .closing a := by
    rcases hg with hg | hg | hg <;> rw [hg] <;> exact Ghost.noConfusion
  have hremoved : G t ≠ .removed a := by
    rcases hg with hg | hg | hg <;> rw [hg] <;> exact Ghost.noConfusion
  refine ⟨howns, h.exclusive.others howns, ?_, ?_⟩
  · intro hlost
    exact hclosing ((h.lost a hlost).2.2 t howns)
  · cases hst : ledger v.trace a with
    | unknown => rfl
    | handed => exact absurd howns ((h.handed a hst).2 t)
    | destroying =>
        obtain ⟨u, hu⟩ := h.destroying a hst
        have hut : u = t := by
          refine h.exclusive u t a ?_ howns
          rcases hu with hu | hu <;> rw [hu] <;> rfl
        subst hut
        rcases hu with hu | hu
        · exact absurd hu hclosing
        · exact absurd hu hremoved

omit [DecidableEq H] in
/-- A step of create on its own record, after which the clients do not know of it either. -/
theorem Inv.create {v : ThreadView N H τ} {G : τ → Ghost} (h : Inv v G) {a : Addr}
    (hg : G t = .making a ∨ G t = .started a ∨ G t = .registered a) {p : (threadSig H).Op}
    {r : (threadSig H).Res p} {s : ThreadState N H} {g : Ghost} (hsound : Sound s)
    (hkeeps : ∀ b, b ≠ a → Keeps v.shared s b)
    (hledger : ∀ b st, ledgerStep b st (.prim id t p r : ThreadEvent H τ) = st)
    (hafter : ∀ b, g.owns = some b → b = a) (hknows : Knows (v.prim id t p r s) t g) :
    Inv (v.prim id t p r s) (Function.update G t g) := by
  obtain ⟨howns, hmine, hlost, hunknown⟩ := h.mine hg
  refine h.onRecord (a := a) hsound hkeeps (fun b _ => hledger b _) hmine ?_ hafter hlost hknows
    ?_ ?_
  · intro b hb
    rw [howns] at hb
    cases hb
    rfl
  · intro hst
    rw [hledger, hunknown] at hst
    cases hst
  · intro hst
    rw [hledger, hunknown] at hst
    cases hst

/-- `pthread_create` in create. -/
theorem safe_pthreadCreate {a : Addr} {stackSize : Option Nat} {func : Addr} {arg : Option Addr}
    {k : Bool → Prog (threadSig H) β} (hfailed : Safe N t id c (k false) Q (.making a))
    (hstarted : Safe N t id c (k true) Q (.started a)) :
    Safe N t id c (.step (.inl (.pthreadCreate a stackSize func arg)) k) Q (.making a) := by
  refine Outline.Wp.step (fun _ _ => rfl) ?_
  intro v G _ hinv hgt _
  refine ⟨trivial, ?_⟩
  intro x ok s hexec _
  obtain ⟨hmem, hin⟩ : v.shared.mem a ≠ none ∧ ¬ InTable v.shared a :=
    Outline.at_ghost hinv.knows hgt
  rcases threadOpExec_pthreadCreate hexec with ⟨rfl, rfl⟩ | ⟨h, hfree, rfl, rfl⟩
  · refine ⟨.making a, ?_, hfailed⟩
    rw [← hgt, Function.update_eq_self]
    exact hinv.quiet rfl (fun _ h => h) (fun _ h => h) hinv.sound.apart nofun fun _ => rfl
  · refine ⟨.started a, hinv.create (a := a) (Or.inl hgt) ?_ (fun b hb => .spawn hb)
      (fun _ _ => rfl) ?_ ⟨?_, hin⟩, hstarted⟩
    · exact hinv.sound.outside hin rfl (fun b hb => Stored.spawn hb)
        (apart_spawn hinv.sound.apart hfree)
    · intro b hb
      cases hb
      rfl
    · exact Stored.of_spawn (o := ⟨h, a, stackSize, func, arg, .joinable⟩) hmem

/-- Registering the record in create. -/
theorem safe_register {a : Addr} {k : TtError → Prog (threadSig H) β}
    (hregistered : Safe N t id c (k .success) Q (.registered a))
    (hfull : Safe N t id c (k .notFound) Q (.started a)) :
    Safe N t id c (.step (.inr (.register (some a))) k) Q (.started a) := by
  refine Outline.Wp.step (fun _ _ => rfl) ?_
  intro v G _ hinv hgt _
  refine ⟨trivial, ?_⟩
  intro x result s hexec _
  obtain ⟨hstored, hin⟩ : Stored v.shared a ∧ ¬ InTable v.shared a :=
    Outline.at_ghost hinv.knows hgt
  cases hexec
  rcases v.shared.table.register_cases a with ⟨i, hi, hregister⟩ | ⟨-, hregister⟩
  · rw [hregister]
    obtain ⟨hsound, hin', hkeeps⟩ := hinv.sound.register hi hstored hin
    refine ⟨.registered a, hinv.create (a := a) (Or.inr (Or.inl hgt)) hsound hkeeps
      (fun _ _ => rfl) ?_ hin', hregistered⟩
    intro b hb
    cases hb
    rfl
  · rw [hregister]
    refine ⟨.started a, ?_, hfull⟩
    rw [← hgt, Function.update_eq_self]
    exact hinv.quiet rfl (fun _ h => h) (fun _ h => h) hinv.sound.apart nofun fun _ => rfl

/-- `*thread = new_thread` hands the record out. -/
theorem safe_writeVar {w a : Addr} {k : Unit → Prog (threadSig H) β}
    (hk : Safe N t id c (k ()) Q .idle) :
    Safe N t id c (.step (.inl (.writeVar w a)) k) Q (.registered a) := by
  refine Outline.Wp.step (fun _ _ => rfl) ?_
  intro v G _ hinv hgt _
  refine ⟨trivial, ?_⟩
  intro x _ s hexec _
  have hin : InTable v.shared a := Outline.at_ghost hinv.knows hgt
  obtain ⟨howns, hmine, hlost, -⟩ := hinv.mine (Or.inr (Or.inr hgt))
  cases hexec
  refine ⟨.idle, hinv.onRecord (a := a) ?_ ?_ ?_ hmine ?_ ?_ hlost trivial ?_ ?_, hk⟩
  · exact ⟨hinv.sound.slots, hinv.sound.free, hinv.sound.once, hinv.sound.apart⟩
  · intro b _
    exact .of_table rfl (fun hm => hm) fun hst => hst
  · intro b hb
    exact if_neg (Ne.symm hb)
  · intro b hb
    rw [howns] at hb
    cases hb
    rfl
  · intro b hb
    cases hb
  · intro _
    exact ⟨hin, rfl⟩
  · intro hst
    have hhanded : ledgerStep a (ledger v.trace a)
        (.prim id t (.inl (.writeVar w a)) () : ThreadEvent H τ) = .handed := if_pos rfl
    rw [hhanded] at hst
    cases hst

/-- Freeing a record that is not in the table. -/
theorem safe_free {a : Addr} {g : Ghost} (hg : g = .making a ∨ g = .started a ∨ g = .removed a)
    {k : Unit → Prog (threadSig H) β} (hk : Safe N t id c (k ()) Q .idle) :
    Safe N t id c (.step (.inl (.free a)) k) Q g := by
  refine Outline.Wp.step (fun _ _ => rfl) ?_
  intro v G _ hinv hgt _
  subst hgt
  refine ⟨trivial, ?_⟩
  intro x _ s hexec _
  have howns : (G t).owns = some a := by
    rcases hg with hg | hg | hg <;> rw [hg] <;> rfl
  have hin : ¬ InTable v.shared a := by
    have hknows := hinv.knows t
    rcases hg with hg | hg | hg
    · rw [hg] at hknows
      exact hknows.2
    · rw [hg] at hknows
      exact hknows.2
    · rw [hg] at hknows
      exact hknows.2.2.1
  have hlost : ¬ Lost v.trace a := by
    intro hlost
    have hclosing := (hinv.lost a hlost).2.2 t howns
    rcases hg with hg | hg | hg <;> rw [hg] at hclosing <;> cases hclosing
  have hunknown : ∀ st, ledgerStep a st (.prim id t (.inl (.free a)) () : ThreadEvent H τ) =
      .unknown := fun _ => if_pos rfl
  cases hexec
  refine ⟨.idle, hinv.onRecord (a := a) ?_ (fun b hb => .setMem hb _) ?_ ?_ ?_ ?_ hlost trivial
    ?_ ?_, hk⟩
  · exact hinv.sound.outside hin rfl (fun b hb => Stored.setMem hb _) hinv.sound.apart
  · intro b hb
    exact if_neg (Ne.symm hb)
  · exact hinv.exclusive.others howns
  · intro b hb
    rw [howns] at hb
    cases hb
    rfl
  · intro b hb
    cases hb
  · intro hst
    rw [hunknown] at hst
    cases hst
  · intro hst
    rw [hunknown] at hst
    cases hst

/-- Unregistering a record that is not in the table. -/
theorem safe_unregister_started {a : Addr} {k : TtError → Prog (threadSig H) β}
    (hk : Safe N t id c (k .notFound) Q (.started a)) :
    Safe N t id c (.step (.inr (.unregister (some a))) k) Q (.started a) := by
  refine Outline.Wp.step (fun _ _ => rfl) ?_
  intro v G _ hinv hgt _
  refine ⟨trivial, ?_⟩
  intro x result s hexec _
  have hin : ¬ InTable v.shared a := (Outline.at_ghost hinv.knows hgt).2
  cases hexec
  rcases v.shared.table.unregister_cases a with ⟨i, hi, -⟩ | ⟨-, hunregister⟩
  · exact absurd ⟨i, hi⟩ hin
  · rw [hunregister]
    refine ⟨.started a, ?_, hk⟩
    rw [← hgt, Function.update_eq_self]
    exact hinv.quiet rfl (fun _ h => h) (fun _ h => h) hinv.sound.apart nofun fun _ => rfl

/-- Taking the record out of the table in destroy. -/
theorem safe_unregister {a : Addr} {k : TtError → Prog (threadSig H) β}
    (hc : c = .destroy (some a))
    (hremoved : Safe N t id c (k .success) Q (.removed a))
    (hlost : Safe N t id c (k .notFound) Q (.closing a)) :
    Safe N t id c (.step (.inr (.unregister (some a))) k) Q (.closing a) := by
  subst hc
  refine Outline.Wp.step (fun _ _ => rfl) ?_
  intro v G _ hinv hgt hcall
  refine ⟨trivial, ?_⟩
  intro x result s hexec _
  obtain ⟨hst, -, id', hid⟩ : Knows v t (.closing a) := Outline.at_ghost hinv.knows hgt
  have heq := hid.1.symm.trans hcall
  cases heq
  have howns : (G t).owns = some a := by
    rw [hgt]
    rfl
  cases hexec
  rcases v.shared.table.unregister_cases a with ⟨i, hi, hunregister⟩ | ⟨-, hunregister⟩
  · rw [hunregister]
    have hmem : v.shared.mem a ≠ none := hinv.mem_of_owns howns
    obtain ⟨hsound, hin, hkeeps⟩ := hinv.sound.unregister hi
    refine ⟨.removed a, hinv.onRecord (a := a) hsound hkeeps (fun _ _ => rfl) ?_ ?_ ?_ ?_ ?_ ?_ ?_,
      hremoved⟩
    · exact hinv.exclusive.others howns
    · intro b hb
      rw [howns] at hb
      cases hb
      rfl
    · intro b hb
      cases hb
      rfl
    · intro hlost'
      exact (hinv.lost a hlost').2.1 ⟨i, hi⟩
    · refine ⟨?_, hmem, hin, id, hid.prim (Or.inr nofun), List.mem_append_right _ (.head _)⟩
      rw [View.prim_trace, ledger_snoc]
      exact hst
    · intro hhanded
      have h := hst.symm.trans hhanded
      cases h
    · intro _
      exact Or.inr rfl
  · rw [hunregister]
    refine ⟨.closing a, ?_, hlost⟩
    rw [← hgt, Function.update_eq_self]
    exact hinv.quiet rfl (fun _ h => h) (fun _ h => h) hinv.sound.apart nofun fun _ => rfl

/-! ### The functions -/

/-- The functions on `pthread_attr`. -/
def Attr (p : ThreadOp H) : Prop :=
  p = .pthreadAttrInit ∨ (∃ n, p = .pthreadAttrSetstacksize n) ∨ p = .pthreadAttrDestroy

/-- `tt_platform_thread_create` comes to its end, unless `pthread_attr` stands in the way. -/
theorem wp_platformCreate {γ : Type}
    {O : Outline (threadSig H) τ (ThreadState N H) (ThreadCall H) TableVal γ} {a func : Addr}
    {attr : Option TtThreadAttr} {arg : Option Addr} {Q : TtError → γ → Prop} {g : γ}
    (hattr : ∀ {p : ThreadOp H} {k : p.Res → Prog (threadSig H) TtError}, Attr p →
      (∀ r, O.Wp (threadSys N H τ).toMachine t id c (k r) Q g) →
      O.Wp (threadSys N H τ).toMachine t id c (.step (.inl p) k) Q g)
    (hwith : ∀ stackSize,
      O.Wp (threadSys N H τ).toMachine t id c (pthreadCreateWith a stackSize func arg) Q g)
    (hfailed : Q .threadCreate g) :
    O.Wp (threadSys N H τ).toMachine t id c (ttPlatformThreadCreate (some a) attr (some func) arg)
      Q g := by
  refine hattr (Or.inl rfl) fun ok => ?_
  cases ok with
  | false => exact hfailed
  | true =>
      cases attr with
      | none => exact hwith none
      | some attr =>
          show O.Wp (threadSys N H τ).toMachine t id c (if attr.stackSize > 0 then
            .step (.inl (.pthreadAttrSetstacksize attr.stackSize)) fun (ok : Bool) =>
              if !ok then .step (.inl .pthreadAttrDestroy) fun _ => .ret .threadCreate
              else pthreadCreateWith a (some attr.stackSize) func arg
            else pthreadCreateWith a none func arg) Q g
          split
          · refine hattr (Or.inr (Or.inl ⟨_, rfl⟩)) fun ok => ?_
            cases ok with
            | false => exact hattr (Or.inr (Or.inr rfl)) fun _ => hfailed
            | true => exact hwith (some attr.stackSize)
          · exact hwith none

/-- `tt_platform_thread_create` on a record that is being made. -/
theorem safe_platformCreate {a func : Addr} {attr : Option TtThreadAttr} {arg : Option Addr}
    {Q : TtError → Ghost → Prop} (hfailed : Q .threadCreate (.making a))
    (hstarted : Q .success (.started a)) :
    Safe N t id c (ttPlatformThreadCreate (some a) attr (some func) arg) Q (.making a) := by
  have hquiet : ∀ {p : ThreadOp H}, Attr p → Quiet (.inl p) := by
    rintro p (rfl | ⟨n, rfl⟩ | rfl) <;> trivial
  refine wp_platformCreate (fun hp => safe_quiet (hquiet hp)) ?_ hfailed
  intro stackSize
  refine safe_quiet trivial fun _ => safe_pthreadCreate ?_ ?_
  · exact safe_quiet trivial fun _ => hfailed
  · exact safe_quiet trivial fun _ => hstarted

/-- `tt_platform_thread_destroy` in the roll-back of create: it frees nothing. -/
theorem safe_rollback {a : Addr} {Q : TtError → Ghost → Prop} (hQ : ∀ e, Q e (.started a)) :
    Safe N t id c (ttPlatformThreadDestroy (some a)) Q (.started a) := by
  refine safe_quiet trivial fun state => ?_
  show Safe N t id c (if state ≠ .terminated then .ret .threadActive else _) Q (.started a)
  split
  · exact hQ .threadActive
  · exact safe_unregister_started (hQ .notFound)

theorem safe_create {thread : Option Addr} {attr : Option TtThreadAttr} {func arg : Option Addr}
    {Q : TtError → Ghost → Prop} (hQ : ∀ e, Q e .idle) :
    Safe N t id c (ttThreadCreate thread attr func arg) Q .idle := by
  cases thread with
  | none => exact hQ .nullPointer
  | some w =>
  cases func with
  | none => exact hQ .nullPointer
  | some func =>
  refine safe_malloc (hQ .memory) fun a => ?_
  refine safe_quiet trivial fun _ => safe_quiet trivial fun _ => safe_quiet trivial fun _ =>
    safe_quiet trivial fun _ => safe_quiet trivial fun _ => safe_quiet trivial fun _ =>
    safe_quiet trivial fun _ => ?_
  refine Outline.Wp.bind (safe_platformCreate ?_ ?_)
  · exact safe_free (Or.inl rfl) (hQ .threadCreate)
  · refine safe_register ?_ ?_
    · exact safe_writeVar (hQ .success)
    · refine Outline.Wp.bind (safe_rollback fun _ => ?_)
      exact safe_free (Or.inr (Or.inl rfl)) (hQ .notFound)

theorem safe_join {thread : Option Addr} {Q : TtError → Ghost → Prop} (hQ : ∀ e, Q e .idle) :
    Safe N t id c (ttThreadJoin thread) Q .idle := by
  cases thread with
  | none => exact hQ .nullPointer
  | some a =>
      refine safe_quiet trivial fun handle => safe_quiet trivial fun ok => ?_
      cases ok with
      | false => exact hQ .threadJoin
      | true => exact safe_quiet trivial fun _ => safe_quiet trivial fun _ => hQ .success

/-- `tt_thread_destroy`, by the call that is destroying the record. -/
theorem safe_destroy {a : Addr} {Q : TtError → Ghost → Prop} (hc : c = .destroy (some a))
    (hactive : Q .threadActive (.closing a)) (hnotFound : Q .notFound (.closing a))
    (hdetach : Q .threadDetach (.removed a)) (hsuccess : Q .success .idle) :
    Safe N t id c (ttThreadDestroy (some a)) Q (.closing a) := by
  have hfree : Safe N t id c (.step (.inl (.free a)) fun _ => .ret .success) Q (.removed a) :=
    safe_free (Or.inr (Or.inr rfl)) hsuccess
  refine safe_quiet trivial fun state => ?_
  show Safe N t id c (if state ≠ .terminated then .ret .threadActive else _) Q (.closing a)
  split
  · exact hactive
  · refine safe_unregister hc ?_ hnotFound
    refine safe_quiet trivial fun isActive => ?_
    cases isActive with
    | false => exact hfree
    | true =>
        refine safe_quiet trivial fun handle => safe_quiet trivial fun ok => ?_
        cases ok with
        | false => exact hdetach
        | true => exact safe_quiet trivial fun _ => hfree

/-! ### Calls and returns -/

omit [DecidableEq H] in
/-- A call that is no destroy of a record. -/
theorem Inv.call {v : ThreadView N H τ} {G : τ → Ghost} (h : Inv v G) (hidle : G t = .idle)
    (hledger : ∀ a st, ledgerStep a st (.call v.next t c : ThreadEvent H τ) = st) :
    Inv (v.call t c) G := by
  refine h.keep h.sound (fun _ => List.mem_append_left _)
    (fun a => .of_table rfl (fun hm => hm) fun hst => hst) ?_ ?_ ?_
  · intro a
    rw [View.call_trace, ledger_snoc]
    exact hledger a _
  · intro a
    exact lost_snoc fun _ _ => nofun
  · rintro u a id' ha ⟨hcall, hfree⟩
    have hut : u ≠ t := by
      intro hut
      subst hut
      rw [hidle] at ha
      cases ha
    exact ⟨by simpa [hut] using hcall, by simpa using hfree⟩

omit [DecidableEq H] in
/-- A destroy of a record that was handed out. -/
theorem Inv.call_destroy {v : ThreadView N H τ} {G : τ → Ghost} (h : Inv v G) (hb : Books v)
    (hidle : G t = .idle) {a : Addr} (ha : ledger v.trace a = .handed) :
    Inv (v.call t (.destroy (some a))) (Function.update G t (.closing a)) := by
  obtain ⟨hin, hnone⟩ := h.handed a ha
  have hlostiff : ∀ b, Lost (v.call t (.destroy (some a))).trace b ↔ Lost v.trace b :=
    fun b => lost_snoc fun _ _ => nofun
  have hself : ledger (v.call t (.destroy (some a))).trace a = .destroying := by
    rw [View.call_trace, ledger_snoc]
    exact if_pos rfl
  refine h.focus (a := a) h.sound (fun _ => List.mem_append_left _)
    (fun b _ => .of_table rfl (fun hm => hm) fun hst => hst) ?_
    (fun b _ => hlostiff b) ?_ (fun u _ => hnone u) ?_ ?_ ?_ ?_ ?_ ?_
  · intro b hb
    rw [View.call_trace, ledger_snoc]
    exact if_neg fun heq => hb (Option.some.inj heq).symm
  · rintro u b id' hu ⟨hcall, hfree⟩
    exact ⟨by simpa [hu] using hcall, by simpa using hfree⟩
  · intro b hb
    rw [hidle] at hb
    cases hb
  · intro b hb
    exact (Option.some.inj hb).symm
  · refine ⟨hself, hin.imp_right (hlostiff a).mpr, v.next, by simp, ?_⟩
    intro hfree
    have hprims := mem_prims (List.mem_append.mp hfree |>.resolve_right (by simp))
    rw [hb.fresh v.next (Nat.le_refl _)] at hprims
    cases hprims
  · intro hst
    have heq := hself.symm.trans hst
    cases heq
  · intro _
    exact Or.inl rfl
  · intro hlost
    obtain ⟨hmem, hin', -⟩ := h.lost a ((hlostiff a).mp hlost)
    exact ⟨hmem, hin', fun _ => rfl⟩

omit [DecidableEq H] in
/-- A call that returns with no record in hand. -/
theorem final_idle {a : TableVal}
    (hledger : ∀ b st, ledgerStep b st (.ret id t c a : ThreadEvent H τ) = st)
    (hlost : ∀ b, c = .destroy (some b) → a ≠ .err .threadDetach) :
    (outline N H τ).Final t id c a .idle := by
  intro v G _ h hgt _ _
  refine ⟨.idle, rfl, ?_⟩
  rw [← hgt, Function.update_eq_self]
  refine h.keep h.sound (fun _ => List.mem_append_left _)
    (fun a => .of_table rfl (fun hm => hm) fun hst => hst) ?_ ?_ ?_
  · intro b
    rw [View.ret_trace, ledger_snoc]
    exact hledger b _
  · intro b
    refine lost_snoc fun id' u heq => ?_
    cases heq
    exact hlost b rfl rfl
  · rintro u b id' hb ⟨hcall, hfree⟩
    have hut : u ≠ t := by
      intro hut
      subst hut
      rw [hgt] at hb
      cases hb
    exact ⟨by simpa [hut] using hcall, by simpa using hfree⟩

omit [DecidableEq H] in
/-- A destroy that fails gives its record back, or has lost it. -/
theorem final_failed {a : Addr} {e : TtError} {g : Ghost} (hc : c = .destroy (some a))
    (he : e ≠ .success) (hg : (e ≠ .threadDetach ∧ g = .closing a) ∨
      (e = .threadDetach ∧ g = .removed a)) :
    (outline N H τ).Final t id c (.err e) g := by
  subst hc
  intro v G _ h hgt _ _
  subst hgt
  have howns : (G t).owns = some a := by
    rcases hg with ⟨-, hg⟩ | ⟨-, hg⟩ <;> rw [hg] <;> rfl
  have hlostiff : ∀ b, (b = a → e ≠ .threadDetach) →
      (Lost (v.ret id t (.destroy (some a)) (.err e)).trace b ↔ Lost v.trace b) := by
    intro b hb
    refine lost_snoc fun id' u heq => ?_
    cases heq
    exact hb rfl rfl
  have hself : ledger (v.ret id t (.destroy (some a)) (.err e)).trace a = .handed := by
    rw [View.ret_trace, ledger_snoc]
    exact if_pos ⟨rfl, fun heq => he (TableVal.err.inj heq)⟩
  have hknows := h.knows t
  refine ⟨.idle, rfl, h.focus (a := a) h.sound (fun _ => List.mem_append_left _)
    (fun b _ => .of_table rfl (fun hm => hm) fun hst => hst) ?_
    (fun b hb => hlostiff b fun hba => absurd hba hb) ?_ ?_ ?_ ?_ trivial ?_ ?_ ?_⟩
  · intro b hb
    rw [View.ret_trace, ledger_snoc]
    exact if_neg fun heq => hb (Option.some.inj heq.1).symm
  · rintro u b id' hu ⟨hcall, hfree⟩
    exact ⟨by simpa [hu] using hcall, by simpa using hfree⟩
  · exact h.exclusive.others howns
  · intro b hb
    rw [howns] at hb
    exact (Option.some.inj hb).symm
  · intro b hb
    cases hb
  · intro _
    refine ⟨?_, rfl⟩
    rcases hg with ⟨hne, hg⟩ | ⟨rfl, hg⟩
    · rw [hg] at hknows
      exact hknows.2.1.imp_right (hlostiff a fun _ => hne).mpr
    · exact Or.inr ⟨id, t, List.mem_append_right _ (.head _)⟩
  · intro hst
    have heq := hself.symm.trans hst
    cases heq
  · intro hlost
    refine ⟨h.mem_of_owns howns, ?_, fun howns' => by cases howns'⟩
    rcases hg with ⟨hne, hg⟩ | ⟨rfl, hg⟩
    · exact (h.lost a ((hlostiff a fun _ => hne).mp hlost)).2.1
    · rw [hg] at hknows
      exact hknows.2.2.1

/-- A call keeps the invariant from beginning to end. -/
theorem safe_call (v : ThreadView N H τ) (G : τ → Ghost) (t : τ) (c : ThreadCall H) (hb : Books v)
    (hinv : Inv v G) (_ : v.calls t = none) (hidle : G t = .idle) (hok : Owned v t c)
    (_ : ¬ (outline N H τ).stop (v.call t c).trace) :
    ∃ g, Inv (v.call t c) (Function.update G t g) ∧
      Safe N t v.next c ((threadSys N H τ).body c) ((outline N H τ).Final t v.next c) g := by
  have hidle' : Inv (v.call t c) G → Inv (v.call t c) (Function.update G t .idle) := by
    intro h
    rw [← hidle, Function.update_eq_self]
    exact h
  cases c with
  | init => exact hok.elim
  | create thread attr func arg =>
      refine ⟨.idle, hidle' (hinv.call hidle fun _ _ => rfl), ?_⟩
      exact Outline.Wp.bind (safe_create fun e => final_idle (fun _ _ => rfl) nofun)
  | join thread =>
      refine ⟨.idle, hidle' (hinv.call hidle fun _ _ => rfl), ?_⟩
      exact Outline.Wp.bind (safe_join fun e => final_idle (fun _ _ => rfl) nofun)
  | findByHandle handle =>
      refine ⟨.idle, hidle' (hinv.call hidle fun _ _ => rfl), ?_⟩
      exact safe_quiet trivial fun thread => final_idle (fun _ _ => rfl) nofun
  | destroy thread =>
      cases thread with
      | none =>
          refine ⟨.idle, hidle' (hinv.call hidle fun b st => by simp [ledgerStep]), ?_⟩
          exact final_idle (fun b st => by simp [ledgerStep]) nofun
      | some a =>
          refine ⟨.closing a, hinv.call_destroy hb hidle hok, Outline.Wp.bind ?_⟩
          refine safe_destroy rfl ?_ ?_ ?_ ?_
          · exact final_failed rfl nofun (Or.inl ⟨nofun, rfl⟩)
          · exact final_failed rfl nofun (Or.inl ⟨nofun, rfl⟩)
          · exact final_failed rfl nofun (Or.inr ⟨rfl, rfl⟩)
          · exact final_idle (fun _ _ => if_neg fun hand => hand.2 rfl) nofun

end Functions

/-! ### Runs -/

variable [DecidableEq H]

omit [DecidableEq H] in
theorem sound_zero : Sound (.zero : ThreadState N H) := by
  refine ⟨?_, fun _ _ => rfl, ?_, List.Pairwise.nil⟩
  · intro i hi
    cases hi
  · intro i j a hi
    cases hi

/-- `tt_thread_init` at program start leaves the table empty. -/
theorem init_zero {t₀ : τ} {s₀ : ThreadState N H} {es : List (threadSig H).Done}
    (hinit : (threadMachine N H τ).Run t₀ ttThreadInit .zero es .success s₀) : s₀ = .zero := by
  obtain ⟨_, _, _, _, hexec, -, hrun⟩ := (Machine.run_step_iff fun _ => rfl).mp hinit
  cases hexec
  obtain ⟨-, -, rfl⟩ := Machine.run_ret_iff.mp hrun
  rfl

omit [DecidableEq H] in
theorem inv_zero : Inv (View.start .zero : ThreadView N H τ) fun _ => .idle := by
  refine ⟨sound_zero, fun _ => trivial, ?_, ?_, ?_, ?_⟩
  · intro t u a ha
    cases ha
  · intro a ha
    cases ha
  · intro a ha
    cases ha
  · rintro a ⟨id, t, ha⟩
    cases ha

/-- After one `tt_thread_init`, every reachable pool satisfies the invariant. -/
theorem inv_of_reach [DecidableEq τ] {t₀ : τ} {s₀ : ThreadState N H}
    {es : List (threadSig H).Done}
    (hinit : (threadMachine N H τ).Run t₀ ttThreadInit .zero es .success s₀)
    {pl : Pool (threadSig H) τ (ThreadState N H) (ThreadCall H) TableVal}
    (h : (threadSys N H τ).Reach Owned s₀ pl) : ∃ G, Inv pl.view G := by
  obtain rfl := init_zero hinit
  exact (Outline.sound (O := outline N H τ) ⟨fun _ => .idle, inv_zero, fun _ => rfl⟩ safe_call h
    fun h => h).imp fun G hG => hG.1

end Thread

end TinyTools
