/-
An OS thread is reaped once, if its record is not joined again.

`tt_thread_destroy` looks at `is_active` before it calls `pthread_detach`.
`tt_thread_join` does not: it calls `pthread_join` on whatever handle the record
holds, also when the thread has been joined before and its handle may by now be
another thread's.
-/
import TinyTools.Proofs.Thread.Custody

namespace TinyTools

open Interleave

namespace ThreadReap

open Thread (ThreadView ThreadEvent Apart apart_spawn apart_reap Attr wp_platformCreate)

variable {N : Nat} {H τ : Type}

/-! ### The steps of the functions -/

section Functions

variable [DecidableEq H]

/-- The primitives that change no record and no thread. -/
def Quiet : (threadSig H).Op → Prop
  | .inl .pthreadAttrInit | .inl (.pthreadAttrSetstacksize _) | .inl .pthreadAttrDestroy
  | .inr _ => True
  | _ => False

theorem Quiet.unchanged {p : (threadSig H).Op} (hp : Quiet p) {t : τ} {x : ThreadChoice H}
    {s s' : ThreadState N H} {r : (threadSig H).Res p}
    (hexec : (threadMachine N H τ).exec x t p s = some (r, s')) :
    s'.mem = s.mem ∧ s'.os = s.os := by
  rcases p with p | p
  · cases p with
    | pthreadAttrInit =>
        rw [threadOpExec_attr (Or.inl rfl) hexec]
        exact ⟨rfl, rfl⟩
    | pthreadAttrSetstacksize n =>
        rw [threadOpExec_attr (Or.inr ⟨n, rfl⟩) hexec]
        exact ⟨rfl, rfl⟩
    | pthreadAttrDestroy =>
        cases hexec
        exact ⟨rfl, rfl⟩
    | _ => exact hp.elim
  · cases p <;> cases hexec <;> exact ⟨rfl, rfl⟩

variable [DecidableEq τ] {t : τ} {id : Nat} {c : ThreadCall H} {β : Type}
  {Q : β → Ghost H → Prop} {a : Addr} {r : TtThread H}

/-- The program `m`, in call `c`, from ghost `g`. -/
abbrev Safe (N : Nat) (t : τ) (id : Nat) (c : ThreadCall H) (m : Prog (threadSig H) β)
    (Q : β → Ghost H → Prop) (g : Ghost H) : Prop :=
  (outline N H τ).Wp (threadSys N H τ).toMachine t id c m Q g

theorem safe_quiet {p : (threadSig H).Op} {k : (threadSig H).Res p → Prog (threadSig H) β}
    {g : Ghost H} (hp : Quiet p) (hk : ∀ res, Safe N t id c (k res) Q g) :
    Safe N t id c (.step p k) Q g := by
  refine Outline.Wp.step (fun _ _ => rfl) ?_
  intro v G _ hinv hgt _
  refine ⟨?_, ?_⟩
  · intro id' c' _
    rcases p with p | p
    · cases p <;> trivial
    · trivial
  · intro x res s hexec _
    obtain ⟨hmem, hos⟩ := hp.unchanged hexec
    refine ⟨g, ?_, hk res⟩
    rw [← hgt, Function.update_eq_self]
    refine hinv.keep hmem hos fun b => ?_
    rw [View.prim_trace, custody_snoc]
    rcases p with p | p
    · cases p <;> first | rfl | exact hp.elim
    · rfl

omit [DecidableEq H] in
/-- A primitive of a thread on the record it has in hand. -/
theorem Inv.onOwn {v : ThreadView N H τ} {G : τ → Ghost H} (h : Inv v G)
    {o o' : Option (OsThread H)} {r' : TtThread H} (hgt : G t = .own a r o)
    {p : (threadSig H).Op} {res : (threadSig H).Res p} {s : ThreadState N H}
    (hothers : ∀ b r₁ o₁, b ≠ a → Held v.shared b r₁ o₁ → Held s b r₁ o₁)
    (hcustody : ∀ b st, custodyStep b st (.prim id t p res : ThreadEvent H τ) = st)
    (happart : s.os.Pairwise Apart) (hheld : Held s a r' o') :
    Inv (v.prim id t p res s) (Function.update G t (.own a r' o')) := by
  obtain ⟨-, hmine, hbefore, hst⟩ := h.mine hgt
  have hsame : ∀ b, custody (v.prim id t p res s).trace b = custody v.trace b := by
    intro b
    rw [View.prim_trace, custody_snoc]
    exact hcustody b _
  refine h.focus (a := a) hothers (fun b _ => hsame b) happart hmine hbefore ?_ hheld ?_ fun _ => rfl
  · intro b hb
    exact (Option.some.inj hb).symm
  · intro hready
    exact absurd ((hsame a).symm.trans hready) hst

/-- `malloc` in create. -/
theorem safe_malloc {k : Option Addr → Prog (threadSig H) β}
    (hnone : Safe N t id c (k none) Q .idle)
    (hsome : ∀ a r, Safe N t id c (k (some a)) Q (.own a r none)) :
    Safe N t id c (.step (.inl .malloc) k) Q .idle := by
  refine Outline.Wp.step (fun _ _ => rfl) ?_
  intro v G _ hinv hgt _
  refine ⟨fun _ _ _ => trivial, ?_⟩
  intro x p s hexec _
  rcases threadOpExec_malloc hexec with ⟨rfl, rfl⟩ | ⟨a, r, hfree, rfl, rfl⟩
  · refine ⟨.idle, ?_, hnone⟩
    rw [← hgt, Function.update_eq_self]
    refine hinv.keep rfl rfl fun b => ?_
    rw [View.prim_trace, custody_snoc]
    rfl
  · obtain ⟨howns, hunknown⟩ := hinv.nobody hfree
    have hsame : ∀ b, custody (v.prim id t (.inl .malloc) (some a)
        (v.shared.setMem a (some { r with handle := none }))).trace b = custody v.trace b := by
      intro b
      rw [View.prim_trace, custody_snoc]
      rfl
    refine ⟨.own a { r with handle := none } none, hinv.focus (a := a)
      (fun b r₁ o₁ hb => Held.setMem hb _) (fun b _ => hsame b) hinv.apart (fun u _ => howns u)
      ?_ ?_ ⟨v.shared.setMem_mem_self a _, nofun⟩ ?_ fun _ => rfl, hsome a _⟩
    · intro b hb
      rw [hgt] at hb
      cases hb
    · intro b hb
      exact (Option.some.inj hb).symm
    · intro hready
      have hst := hunknown.symm.trans ((hsame a).symm.trans hready)
      cases hst

/-- An assignment to a field of the record in hand. -/
theorem safe_write {o : Option (OsThread H)} {w : RecordWrite} {k : Unit → Prog (threadSig H) β}
    (hk : Safe N t id c (k ()) Q (.own a (r.write w) o)) :
    Safe N t id c (.step (.inl (.write a w)) k) Q (.own a r o) := by
  refine Outline.Wp.step (fun _ _ => rfl) ?_
  intro v G _ hinv hgt _
  refine ⟨fun _ _ _ => trivial, ?_⟩
  intro x _ s hexec _
  obtain ⟨hheld, -⟩ := hinv.mine hgt
  cases hexec
  refine ⟨.own a (r.write w) o, hinv.onOwn hgt (fun b r₁ o₁ hb => Held.setMem hb _)
    (fun _ _ => rfl) hinv.apart ⟨?_, ?_⟩, hk⟩
  · rw [ThreadState.setMem_mem_self, hheld.mem]
    rfl
  · intro o' ho'
    rw [TtThread.write_handle]
    exact hheld.started o' ho'

/-- A read of a field of the record in hand. -/
theorem safe_read {o : Option (OsThread H)} {p : ThreadOp H} {k : p.Res → Prog (threadSig H) β}
    (field : TtThread H → p.Res)
    (hp : ∀ x (s : ThreadState N H), threadOpExec x p s = readExec x a field s)
    (hpre : ∀ s : ThreadState N H, Reaps s c (.inl p))
    (hcustody : ∀ res b st, custodyStep b st (.prim id t (.inl p) res : ThreadEvent H τ) = st)
    (hk : Safe N t id c (k (field r)) Q (.own a r o)) :
    Safe N t id c (.step (.inl p) k) Q (.own a r o) := by
  refine Outline.Wp.step (fun _ _ => rfl) ?_
  intro v G _ hinv hgt hcall
  refine ⟨?_, ?_⟩
  · intro id' c' hcall'
    have hc := hcall.symm.trans hcall'
    cases hc
    exact hpre v.shared
  · intro x res s hexec _
    obtain ⟨hheld, -⟩ := hinv.mine hgt
    obtain ⟨rfl, hres⟩ := readExec_cases ((hp x v.shared).symm.trans hexec)
    rw [hres r hheld.mem]
    exact ⟨.own a r o, hinv.onOwn hgt (fun _ _ _ _ h => h) (hcustody _) hinv.apart hheld, hk⟩

/-- `pthread_create` in create. -/
theorem safe_pthreadCreate {stackSize : Option Nat} {func : Addr} {arg : Option Addr}
    {k : Bool → Prog (threadSig H) β} (hfailed : Safe N t id c (k false) Q (.own a r none))
    (hstarted : ∀ h o, o.status = .joinable →
      Safe N t id c (k true) Q (.own a { r with handle := some h } (some o))) :
    Safe N t id c (.step (.inl (.pthreadCreate a stackSize func arg)) k) Q (.own a r none) := by
  refine Outline.Wp.step (fun _ _ => rfl) ?_
  intro v G _ hinv hgt _
  refine ⟨fun _ _ _ => trivial, ?_⟩
  intro x ok s hexec _
  obtain ⟨hheld, -⟩ := hinv.mine hgt
  rcases threadOpExec_pthreadCreate hexec with ⟨rfl, rfl⟩ | ⟨h, hfree, rfl, rfl⟩
  · exact ⟨_, hinv.onOwn hgt (fun _ _ _ _ h => h) (fun _ _ => rfl) hinv.apart hheld, hfailed⟩
  · let o : OsThread H := ⟨h, a, stackSize, func, arg, .joinable⟩
    exact ⟨_, hinv.onOwn hgt (fun b r₁ o₁ hb => Held.spawn o hb) (fun _ _ => rfl)
      (apart_spawn hinv.apart hfree) (Held.of_spawn (o := o) hheld.mem), hstarted h o rfl⟩

/-- `pthread_join` on the thread of the record in hand. -/
theorem safe_pthreadJoin {o : OsThread H} {k : Bool → Prog (threadSig H) β}
    (hc : c.record = some a) (hjoinable : o.status = .joinable)
    (hfailed : Safe N t id c (k false) Q (.own a r (some o)))
    (hjoined : Safe N t id c (k true) Q (.own a r (some { o with status := .joined }))) :
    Safe N t id c (.step (.inl (.pthreadJoin r.handle)) k) Q (.own a r (some o)) := by
  refine Outline.Wp.step (fun _ _ => rfl) ?_
  intro v G _ hinv hgt hcall
  obtain ⟨hheld, -⟩ := hinv.mine hgt
  obtain ⟨hstarted, hhandle⟩ := hheld.started o rfl
  refine ⟨?_, ?_⟩
  · intro id' c' hcall'
    have heq := hcall.symm.trans hcall'
    cases heq
    exact ⟨a, o, hc, hstarted, hhandle, hjoinable⟩
  · intro x ok s hexec _
    rcases reapExec_cases (Option.some.inj hexec) with ⟨rfl, rfl⟩ | ⟨h, hh, -, rfl, rfl⟩
    · exact ⟨_, hinv.onOwn hgt (fun _ _ _ _ h => h) (fun _ _ => rfl) hinv.apart hheld, hfailed⟩
    · have heq := hhandle.symm.trans hh
      cases heq
      exact ⟨_, hinv.onOwn hgt
        (fun b r₁ o₁ hb => Held.reap hinv.apart hstarted hjoinable .joined hb) (fun _ _ => rfl)
        (apart_reap hinv.apart _ _) (hheld.reap_self hjoinable .joined), hjoined⟩

/-- `*thread = new_thread` hands the record out. -/
theorem safe_writeVar {w : Addr} {o : OsThread H} {k : Unit → Prog (threadSig H) β}
    (hactive : Active r o) (hk : Safe N t id c (k ()) Q .idle) :
    Safe N t id c (.step (.inl (.writeVar w a)) k) Q (.own a r (some o)) := by
  refine Outline.Wp.step (fun _ _ => rfl) ?_
  intro v G _ hinv hgt _
  refine ⟨fun _ _ _ => trivial, ?_⟩
  intro x _ s hexec _
  obtain ⟨hheld, hmine, hbefore, -⟩ := hinv.mine hgt
  cases hexec
  refine ⟨.idle, hinv.focus (a := a) (fun _ _ _ _ => .congr rfl rfl) ?_ hinv.apart hmine hbefore
    nofun trivial ?_ ?_, hk⟩
  · intro b hb
    rw [View.prim_trace, custody_snoc]
    exact if_neg hb.symm
  · intro _
    exact ⟨⟨r, o, Held.congr (s := v.shared) rfl rfl hheld, Or.inl hactive⟩, rfl⟩
  · intro hbusy
    rw [View.prim_trace, custody_snoc] at hbusy
    have hst := (if_pos rfl).symm.trans hbusy
    cases hst

/-- `free` of the record in hand. -/
theorem safe_free {o : Option (OsThread H)} {k : Unit → Prog (threadSig H) β}
    (hpre : ∀ b, c = .destroy (some b) → a = b ∧ ∃ o', o = some o' ∧ o'.status ≠ .joinable)
    (hk : Safe N t id c (k ()) Q .idle) :
    Safe N t id c (.step (.inl (.free a)) k) Q (.own a r o) := by
  refine Outline.Wp.step (fun _ _ => rfl) ?_
  intro v G _ hinv hgt hcall
  obtain ⟨hheld, hmine, hbefore, -⟩ := hinv.mine hgt
  refine ⟨?_, ?_⟩
  · intro id' c' hcall' b hb
    have heq := hcall.symm.trans hcall'
    cases heq
    obtain ⟨rfl, o', ho', hstatus⟩ := hpre b hb
    exact ⟨rfl, o', (hheld.started o' ho').1, hstatus⟩
  · intro x _ s hexec _
    cases hexec
    have hself : custody (v.prim id t (.inl (.free a)) () (v.shared.setMem a none)).trace a =
        .unknown := by
      rw [View.prim_trace, custody_snoc]
      exact if_pos rfl
    refine ⟨.idle, hinv.focus (a := a) (fun b r₁ o₁ hb => Held.setMem hb _) ?_ hinv.apart hmine
      hbefore nofun trivial ?_ ?_, hk⟩
    · intro b hb
      rw [View.prim_trace, custody_snoc]
      exact if_neg hb.symm
    · intro hready
      have hst := hself.symm.trans hready
      cases hst
    · intro hbusy
      have hst := hself.symm.trans hbusy
      cases hst

/-! ### The functions -/

/-- `tt_platform_thread_create` on a record that is being made. -/
theorem safe_platformCreate {func : Addr} {attr : Option TtThreadAttr} {arg : Option Addr}
    {Q : TtError → Ghost H → Prop} (hr : r.isActive = true)
    (hfailed : ∀ r, Q .threadCreate (.own a r none))
    (hstarted : ∀ r o, Active r o → Q .success (.own a r (some o))) :
    Safe N t id c (ttPlatformThreadCreate (some a) attr (some func) arg) Q (.own a r none) := by
  have hquiet : ∀ {p : ThreadOp H}, Attr p → Quiet (.inl p) := by
    rintro p (rfl | ⟨n, rfl⟩ | rfl) <;> trivial
  refine wp_platformCreate (fun hp => safe_quiet (hquiet hp)) ?_ (hfailed r)
  intro stackSize
  refine safe_write (safe_pthreadCreate ?_ ?_)
  · exact safe_quiet trivial fun _ => hfailed _
  · intro h o ho
    exact safe_quiet trivial fun _ => hstarted _ o ⟨rfl, hr, ho⟩

/-- `tt_platform_thread_destroy` refuses a record that is not terminated. -/
theorem safe_platformDestroy_refused {o : Option (OsThread H)} {Q : TtError → Ghost H → Prop}
    (hstate : r.state ≠ .terminated) (hQ : Q .threadActive (.own a r o)) :
    Safe N t id c (ttPlatformThreadDestroy (some a)) Q (.own a r o) := by
  refine safe_read TtThread.state (fun _ _ => rfl) (fun _ => trivial) (fun _ _ _ => rfl) ?_
  rw [if_pos hstate]
  exact hQ

theorem safe_create {thread : Option Addr} {attr : Option TtThreadAttr} {func arg : Option Addr}
    {Q : TtError → Ghost H → Prop} (hc : c.record = none) (hQ : ∀ e, Q e .idle) :
    Safe N t id c (ttThreadCreate thread attr func arg) Q .idle := by
  have hfree : ∀ {a r o e}, Safe N t id c (.step (.inl (.free a)) fun _ => .ret e) Q
      (.own a r o) := by
    intro a r o e
    refine safe_free ?_ (hQ e)
    rintro b rfl
    cases hc
  cases thread with
  | none => exact hQ .nullPointer
  | some w =>
  cases func with
  | none => exact hQ .nullPointer
  | some func =>
  refine safe_malloc (hQ .memory) fun a r => ?_
  refine safe_write (safe_write (safe_write (safe_write (safe_write (safe_write (safe_write ?_))))))
  refine Outline.Wp.bind (safe_platformCreate rfl (fun _ => hfree) ?_)
  intro r o hactive
  refine safe_quiet trivial fun (result : TtError) => ?_
  show Safe N t id c (if result ≠ .success then _ else _) Q _
  split
  · refine Outline.Wp.bind (safe_platformDestroy_refused ?_ hfree)
    rw [hactive.state]
    exact nofun
  · exact safe_writeVar hactive (hQ .success)

theorem safe_join {o : OsThread H} {Q : TtError → Ghost H → Prop} (hc : c.record = some a)
    (hactive : Active r o)
    (hQ : ∀ e r o, Active r o ∨ Reaped r o → Q e (.own a r (some o))) :
    Safe N t id c (ttThreadJoin (some a)) Q (.own a r (some o)) := by
  refine safe_read TtThread.handle (fun _ _ => rfl) (fun _ => trivial) (fun _ _ _ => rfl) ?_
  refine safe_pthreadJoin hc hactive.status ?_ ?_
  · exact hQ .threadJoin r o (Or.inl hactive)
  · refine safe_write (safe_write (hQ .success _ _ (Or.inr ⟨rfl, rfl, ?_⟩)))
    exact nofun

theorem safe_destroy {o : OsThread H} {Q : TtError → Ghost H → Prop} (hc : c.record = some a)
    (hrest : Active r o ∨ Reaped r o) (hfailed : ∀ e, e ≠ .success → Q e (.own a r (some o)))
    (hsuccess : Q .success .idle) :
    Safe N t id c (ttThreadDestroy (some a)) Q (.own a r (some o)) := by
  rcases hrest with hactive | hreaped
  · refine safe_platformDestroy_refused ?_ (hfailed .threadActive nofun)
    rw [hactive.state]
    exact nofun
  refine safe_read TtThread.state (fun _ _ => rfl) (fun _ => trivial) (fun _ _ _ => rfl) ?_
  rw [if_neg (not_not_intro hreaped.state)]
  refine safe_quiet trivial fun (result : TtError) => ?_
  show Safe N t id c (if result ≠ .success then _ else _) Q _
  split
  · rename_i hresult
    exact hfailed result hresult
  refine safe_read TtThread.isActive (fun _ _ => rfl) (fun _ => trivial) (fun _ _ _ => rfl) ?_
  rw [hreaped.isActive]
  refine safe_free ?_ hsuccess
  rintro b rfl
  exact ⟨(Option.some.inj hc).symm, o, rfl, hreaped.status⟩

/-! ### Calls and returns -/

omit [DecidableEq H] in
/-- A call that returns with nothing in hand. -/
theorem final_idle {result : TableVal} (hresult : givesBack result c = none) :
    (outline N H τ).Final t id c result .idle := by
  intro v G _ hinv hgt _ _
  refine ⟨.idle, rfl, ?_⟩
  rw [← hgt, Function.update_eq_self]
  refine hinv.keep rfl rfl fun b => ?_
  rw [View.ret_trace, custody_snoc]
  show (if givesBack result c = some b then _ else _) = _
  rw [hresult]
  rfl

omit [DecidableEq H] in
/-- A call that gives its record back. -/
theorem final_back {result : TableVal} {o : OsThread H} (hresult : givesBack result c = some a)
    (hrest : Active r o ∨ Reaped r o) :
    (outline N H τ).Final t id c result (.own a r (some o)) := by
  intro v G _ hinv hgt _ _
  obtain ⟨hheld, hmine, hbefore, -⟩ := hinv.mine hgt
  have hcustody : ∀ b, custody (v.ret id t c result).trace b =
      if a = b then .ready else custody v.trace b := by
    intro b
    rw [View.ret_trace, custody_snoc]
    show (if givesBack result c = some b then _ else _) = _
    rw [hresult]
    simp
  refine ⟨.idle, rfl, hinv.focus (a := a) (fun _ _ _ _ h => h) ?_ hinv.apart hmine hbefore nofun
    trivial ?_ ?_⟩
  · intro b hb
    rw [hcustody, if_neg hb.symm]
  · intro _
    exact ⟨⟨r, o, hheld, hrest⟩, rfl⟩
  · intro hbusy
    rw [hcustody, if_pos rfl] at hbusy
    cases hbusy

omit [DecidableEq H] in
theorem Inv.call {v : ThreadView N H τ} {G : τ → Ghost H} (h : Inv v G) (hc : c.record = none) :
    Inv (v.call t c) G := by
  refine h.keep rfl rfl fun b => ?_
  rw [View.call_trace, custody_snoc]
  show (if c.record = some b then _ else _) = _
  rw [hc]
  rfl

omit [DecidableEq H] in
/-- A call on a record of the clients. -/
theorem Inv.call_own {v : ThreadView N H τ} {G : τ → Ghost H} (h : Inv v G) (hidle : G t = .idle)
    (hc : c.record = some a) (hst : custody v.trace a = .ready) :
    ∃ r o, v.shared.mem a = some r ∧ (Active r o ∨ Reaped r o) ∧
      Inv (v.call t c) (Function.update G t (.own a r (some o))) := by
  obtain ⟨⟨r, o, hheld, hrest⟩, hnone⟩ := h.ready a hst
  have hcustody : ∀ b, custody (v.call t c).trace b =
      if a = b then .busy else custody v.trace b := by
    intro b
    rw [View.call_trace, custody_snoc]
    show (if c.record = some b then _ else _) = _
    rw [hc]
    simp
  refine ⟨r, o, hheld.mem, hrest, h.focus (a := a) (fun _ _ _ _ h => h) ?_ h.apart
    (fun u _ => hnone u) ?_ ?_ hheld ?_ fun _ => rfl⟩
  · intro b hb
    rw [hcustody, if_neg hb.symm]
  · intro b hb
    rw [hidle] at hb
    cases hb
  · intro b hb
    exact (Option.some.inj hb).symm
  · intro hready
    rw [hcustody, if_pos rfl] at hready
    cases hready

/-- A call keeps the invariant from beginning to end. -/
theorem safe_call (v : ThreadView N H τ) (G : τ → Ghost H) (t : τ) (c : ThreadCall H)
    (_ : Books v) (hinv : Inv v G) (_ : v.calls t = none) (hidle : G t = .idle)
    (hok : Careful v t c) (_ : ¬ (outline N H τ).stop (v.call t c).trace) :
    ∃ g, Inv (v.call t c) (Function.update G t g) ∧
      Safe N t v.next c ((threadSys N H τ).body c) ((outline N H τ).Final t v.next c) g := by
  have hidle' : c.record = none → Inv (v.call t c) (Function.update G t .idle) := by
    intro hc
    rw [← hidle, Function.update_eq_self]
    exact hinv.call hc
  cases c with
  | init => exact ⟨.idle, hidle' rfl, safe_quiet trivial fun _ => final_idle rfl⟩
  | create thread attr func arg =>
      refine ⟨.idle, hidle' rfl, Outline.Wp.bind (safe_create rfl fun e => ?_)⟩
      exact final_idle rfl
  | findByHandle handle =>
      exact ⟨.idle, hidle' rfl, safe_quiet trivial fun _ => final_idle rfl⟩
  | join thread =>
      cases thread with
      | none => exact ⟨.idle, hidle' rfl, final_idle rfl⟩
      | some a =>
          obtain ⟨hst, hactive⟩ := hok
          obtain ⟨r, o, hr, hrest, hinv'⟩ := hinv.call_own hidle (c := .join (some a)) rfl hst
          rw [hr] at hactive
          refine ⟨_, hinv', Outline.Wp.bind (safe_join rfl ?_ fun e r o => final_back rfl)⟩
          refine hrest.resolve_right fun hreaped => ?_
          exact Bool.false_ne_true (hreaped.isActive.symm.trans hactive)
  | destroy thread =>
      cases thread with
      | none => exact ⟨.idle, hidle' rfl, final_idle rfl⟩
      | some a =>
          obtain ⟨r, o, -, hrest, hinv'⟩ := hinv.call_own hidle (c := .destroy (some a)) rfl hok
          refine ⟨_, hinv', Outline.Wp.bind (safe_destroy rfl hrest ?_ (final_idle rfl))⟩
          intro e he
          exact final_back (if_neg fun heq => he (TableVal.err.inj heq)) hrest

end Functions

theorem inv_start [DecidableEq H] : ∃ G, Inv (View.start .zero : ThreadView N H τ) G ∧
    ∀ t, (outline N H τ).idle (G t) := by
  refine ⟨fun _ => .idle, ⟨fun _ => trivial, ?_, ?_, ?_, List.Pairwise.nil⟩, fun _ => rfl⟩
  · intro t u a ha
    cases ha
  · intro a ha
    cases ha
  · intro a ha
    cases ha

/-- A thread that is created and joined. -/
def joinSchedule : List (Label Nat (ThreadChoice Nat) (ThreadCall Nat)) :=
  createLabels 0 10 20 ++ .call 0 (.join (some 10)) :: List.replicate 4 (.prim 0 .ok) ++ [.ret 0]

end ThreadReap

open ThreadReap in
/--
**Every OS thread is reaped at most once, and exactly once when its record is freed**,
as long as the clients join a record only while it is active, and make one call on it
at a time.
-/
theorem ttThread_reaped_once {N : Nat} {H τ : Type} [DecidableEq H] [DecidableEq τ]
    {pl : Pool (threadSig H) τ (ThreadState N H) (ThreadCall H) TableVal}
    (h : (threadSys N H τ).Reach Careful .zero pl) {t : τ} {id : Nat} {c : ThreadCall H}
    {p : (threadSig H).Op} {k : (threadSig H).Res p → Prog (threadSig H) TableVal}
    (hc : pl.view.calls t = some (id, c)) (hp : pl.prog t = some (.step p k)) :
    Reaps pl.view.shared c p :=
  (outline N H τ).sound_pre inv_start safe_call h (fun hstop => hstop) hc hp id c hc

open ThreadReap in
/-- A record that is about to be freed. -/
theorem ttThread_reaped_once_destroy :
    ∃ pl : Pool (threadSig Nat) Nat (ThreadState 1 Nat) (ThreadCall Nat) TableVal,
      (∃ k, pl.prog 0 = some (.step (.inl (.free 10)) k)) ∧
      Reaps pl.view.shared (.destroy (some 10)) (.inl (.free 10)) := by
  have hrun : ((threadSys 1 Nat Nat).run Careful (joinSchedule ++
      .call 0 (.destroy (some 10)) :: List.replicate 3 (.prim 0 .ok)) (Sys.start .zero)).isSome =
        true := rfl
  exact ⟨_, ⟨_, rfl⟩, ttThread_reaped_once (Sys.Reach.run _ .start (Option.some_get hrun).symm)
    (t := 0) rfl rfl⟩

open ThreadReap in
/-- **A second join reaches `pthread_join` with a thread that has been joined.** -/
theorem ttThread_reaped_twice :
    ∃ pl : Pool (threadSig Nat) Nat (ThreadState 1 Nat) (ThreadCall Nat) TableVal,
      (threadSys 1 Nat Nat).Reach Thread.Owned .zero pl ∧
      pl.view.calls 0 = some (2, .join (some 10)) ∧
      (∃ k, pl.prog 0 = some (.step (.inl (.pthreadJoin (some 20))) k)) ∧
      ¬ Reaps pl.view.shared (.join (some 10)) (.inl (.pthreadJoin (some 20))) := by
  have hrun : ((threadSys 1 Nat Nat).run Thread.Owned (joinSchedule ++
      [.call 0 (.join (some 10)), .prim 0 .ok]) (Sys.start .zero)).isSome = true := rfl
  refine ⟨_, Sys.Reach.run _ .start (Option.some_get hrun).symm, rfl, ⟨_, rfl⟩, ?_⟩
  rintro ⟨a, o, hrecord, ho, -, hjoinable⟩
  cases hrecord
  cases ho
  cases hjoinable

end TinyTools
