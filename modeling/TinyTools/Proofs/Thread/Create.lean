/-
`tt_thread_create` is all or nothing, except on a full table.

Every failure before the OS thread exists is undone by freeing the record.  The last
failure comes after: the thread is running when the table turns out to be full.  The
roll-back calls `tt_platform_thread_destroy`, which answers that the thread is
active, since its state is still the one `tt_thread_create` wrote, and does nothing;
the record is freed all the same and nobody can join or detach the thread any more.

The function is run alone, from any state and for every choice of the environment.
-/
import TinyTools.Thread

namespace TinyTools

open Interleave

namespace ThreadCreate

variable {N : Nat} {H τ α : Type} [DecidableEq H] {t : τ} {b : α} {s s' : ThreadState N H}
  {es : List (threadSig H).Done}

/-! ### One node -/

instance : Nonempty (ThreadChoice H) := ⟨.ok⟩

@[simp] theorem run_write {a : Addr} {w : RecordWrite} {k : Unit → Prog (threadSig H) α} :
    (threadMachine N H τ).Run t
        (.step (.inl (.write a w) : ThreadOp H ⊕ TableCall (Option H)) k) s es b s' ↔
      ∃ es₁, es = ⟨.inl (.write a w), ()⟩ :: es₁ ∧
        (threadMachine N H τ).Run t (k ()) (s.setMem a ((s.mem a).map (·.write w))) es₁ b s' :=
  Machine.run_step_det (fun _ => rfl) fun _ => rfl

@[simp] theorem run_free {a : Addr} {k : Unit → Prog (threadSig H) α} :
    (threadMachine N H τ).Run t
        (.step (.inl (.free a) : ThreadOp H ⊕ TableCall (Option H)) k) s es b s' ↔
      ∃ es₁, es = ⟨.inl (.free a), ()⟩ :: es₁ ∧
        (threadMachine N H τ).Run t (k ()) (s.setMem a none) es₁ b s' :=
  Machine.run_step_det (fun _ => rfl) fun _ => rfl

@[simp] theorem run_writeVar {v a : Addr} {k : Unit → Prog (threadSig H) α} :
    (threadMachine N H τ).Run t
        (.step (.inl (.writeVar v a) : ThreadOp H ⊕ TableCall (Option H)) k) s es b s' ↔
      ∃ es₁, es = ⟨.inl (.writeVar v a), ()⟩ :: es₁ ∧
        (threadMachine N H τ).Run t (k ()) { s with vars := Function.update s.vars v (some a) }
          es₁ b s' :=
  Machine.run_step_det (fun _ => rfl) fun _ => rfl

@[simp] theorem run_pthreadAttrDestroy {k : Unit → Prog (threadSig H) α} :
    (threadMachine N H τ).Run t
        (.step (.inl .pthreadAttrDestroy : ThreadOp H ⊕ TableCall (Option H)) k) s es b s' ↔
      ∃ es₁, es = ⟨.inl .pthreadAttrDestroy, ()⟩ :: es₁ ∧
        (threadMachine N H τ).Run t (k ()) s es₁ b s' :=
  Machine.run_step_det (fun _ => rfl) fun _ => rfl

@[simp] theorem run_register {thread : Option Addr} {k : TtError → Prog (threadSig H) α} :
    (threadMachine N H τ).Run t
        (.step (.inr (.register thread) : ThreadOp H ⊕ TableCall (Option H)) k) s es b s' ↔
      ∃ es₁, es = ⟨.inr (.register thread), (s.table.register thread).1⟩ :: es₁ ∧
        (threadMachine N H τ).Run t (k (s.table.register thread).1)
          { s with table := (s.table.register thread).2 } es₁ b s' :=
  Machine.run_step_det (fun _ => rfl) fun _ => rfl

/-- A read of a record that is allocated. -/
theorem run_readState {a : Addr} {r : TtThread H} (hr : s.mem a = some r)
    {k : TtThreadState → Prog (threadSig H) α} :
    (threadMachine N H τ).Run t
        (.step (.inl (.readState a) : ThreadOp H ⊕ TableCall (Option H)) k) s es b s' ↔
      ∃ es₁, es = ⟨.inl (.readState a), r.state⟩ :: es₁ ∧
        (threadMachine N H τ).Run t (k r.state) s es₁ b s' := by
  refine Machine.run_step_det (fun _ => rfl) fun x => ?_
  show readExec x a TtThread.state s = some (r.state, s)
  unfold readExec
  rw [hr]

/-- A node whose outcome the environment decides. -/
theorem run_choice {p : ThreadOp H} {k : p.Res → Prog (threadSig H) α}
    (h : (threadMachine N H τ).Run t (.step (S := threadSig H) (.inl p) k) s es b s') :
    ∃ x r s₁ es₁, threadOpExec x p s = some (r, s₁) ∧ es = ⟨.inl p, r⟩ :: es₁ ∧
      (threadMachine N H τ).Run t (k r) s₁ es₁ b s' :=
  (Machine.run_step_iff fun _ => rfl).mp h

/-! ### What a call leaves behind -/

/-- The environment refused what it was asked for. -/
def refusal : (threadSig H).Done → Prop
  | ⟨.inl .malloc, p⟩ => p = none
  | ⟨.inl .pthreadAttrInit, ok⟩ | ⟨.inl (.pthreadAttrSetstacksize _), ok⟩
  | ⟨.inl (.pthreadCreate _ _ _ _), ok⟩ => ok = false
  | _ => False

/-- One of `malloc`, `pthread_attr_init`, `pthread_attr_setstacksize` and `pthread_create` has
failed. -/
def Refused (es : List (threadSig H).Done) : Prop := ∃ e ∈ es, refusal e

omit [DecidableEq H] in
@[simp] theorem not_refused_nil : ¬ Refused ([] : List (threadSig H).Done) := by
  simp [Refused]

omit [DecidableEq H] in
@[simp] theorem refused_cons (e : (threadSig H).Done) :
    Refused (e :: es) ↔ refusal e ∨ Refused es := by
  simp [Refused]

omit [DecidableEq H] in
@[simp] theorem refused_append (es₂ : List (threadSig H).Done) :
    Refused (es ++ es₂) ↔ Refused es ∨ Refused es₂ := by
  simp [Refused, or_and_right, exists_or]

/-- The records stored in the variables of the callers. -/
def handed (es : List (threadSig H).Done) : List Addr :=
  es.filterMap fun
    | ⟨.inl (.writeVar _ a), _⟩ => some a
    | _ => none

omit [DecidableEq H] in
@[simp] theorem handed_append (es₂ : List (threadSig H).Done) :
    handed (es ++ es₂) = handed es ++ handed es₂ :=
  List.filterMap_append

omit [DecidableEq H] in
theorem handed_cons {e : (threadSig H).Done} (he : handed [e] = []) :
    handed (e :: es) = handed es := by
  rw [← List.singleton_append, handed_append, he, List.nil_append]

/-- The OS threads that nobody has joined or detached. -/
def unreaped (s : ThreadState N H) : List (OsThread H) := s.os.filter fun o => o.status = .joinable

/-- A failing call changes nothing; a successful one starts one OS thread and registers it. -/
structure Atomic (s : ThreadState N H) (result : TtError) (s' : ThreadState N H) : Prop where
  table : result ≠ .success → s'.table = s.table
  mem : result ≠ .success → s'.mem = s.mem
  vars : result ≠ .success → s'.vars = s.vars
  os : result ≠ .success → unreaped s' = unreaped s
  created : result = .success → ∃ o, s'.os = o :: s.os ∧ o.status = .joinable ∧
    ∃ i, (s.table i).inUse = false ∧ s'.table i = ⟨some o.record, true⟩

/-! ### The functions alone -/

omit [DecidableEq H] in
@[simp] theorem setMem_setMem (s : ThreadState N H) (a : Addr) (r r' : Option (TtThread H)) :
    (s.setMem a r).setMem a r' = s.setMem a r' := by
  simp [ThreadState.setMem]

omit [DecidableEq H] in
/-- Writing what is there, or freeing what was not. -/
theorem setMem_eq_self {a : Addr} {r : Option (TtThread H)} (hr : s.mem a = r) :
    s.setMem a r = s := by
  subst hr
  simp [ThreadState.setMem]

/-- The stack size `tt_platform_thread_create` sets in the attributes, if any. -/
def askedStack (attr : Option TtThreadAttr) : Option Nat :=
  attr.bind fun attr => if attr.stackSize > 0 then some attr.stackSize else none

/-- The OS thread of a `tt_thread_create`. -/
def newThread (attr : Option TtThreadAttr) (func : Addr) (arg : Option Addr) (a : Addr) (h : H) :
    OsThread H :=
  ⟨h, a, askedStack attr, func, arg, .joinable⟩

/-- The record of a `tt_thread_create`. -/
def newRecord (attr : Option TtThreadAttr) (func : Addr) (arg : Option Addr) (h : H) :
    TtThread H where
  handle := some h
  state := .created
  priority := attr.elim .normal (·.priority)
  func := func
  arg := arg
  name := attr.elim (some "tt_thread") (·.name)
  stackSize := attr.elim ttDefaultStackSize (·.stackSize)
  isActive := true

/-- `s` with an OS thread more, for which `r` is the record at `a`. -/
def started (s : ThreadState N H) (a : Addr) (r : TtThread H) (o : OsThread H) : ThreadState N H :=
  { s.setMem a (some r) with os := o :: s.os }

omit [DecidableEq H] in
/-- The record is freed, and its thread goes on. -/
theorem started_free {a : Addr} (hmem : s.mem a = none) (r : TtThread H) (o : OsThread H) :
    (started s a r o).setMem a none = { s with os := o :: s.os } := by
  simp only [started, ThreadState.setMem, Function.update_idem]
  rw [← hmem, Function.update_eq_self]

/-- What `tt_platform_thread_create` comes to with the record `r` at `a`: nothing, or one joinable
OS thread whose handle is in the record. -/
inductive PlatformCreated (a : Addr) (r : TtThread H) (stackSize : Option Nat) (func : Addr)
    (arg : Option Addr) (s : ThreadState N H) :
    List (threadSig H).Done → TtError → ThreadState N H → Prop
  | failed {es : List (threadSig H).Done} {result : TtError} (r' : TtThread H)
      (hresult : result ≠ .success) (hrefused : Refused es) (hhanded : handed es = []) :
      PlatformCreated a r stackSize func arg s es result (s.setMem a (some r'))
  | created {es : List (threadSig H).Done} {h : H} (hrefused : ¬ Refused es)
      (hhanded : handed es = []) (hfree : s.taken h = false) :
      PlatformCreated a r stackSize func arg s es .success
        (started s a { r with state := .created, handle := some h }
          ⟨h, a, stackSize, func, arg, .joinable⟩)

variable {a func : Addr} {stackSize : Option Nat} {arg : Option Addr} {r : TtThread H}
  {result : TtError}

/-- A first step that was not refused does not matter. -/
theorem PlatformCreated.cons {e : (threadSig H).Done} (he : ¬ refusal e) (hv : handed [e] = [])
    (h : PlatformCreated a r stackSize func arg s es result s') :
    PlatformCreated a r stackSize func arg s (e :: es) result s' := by
  have hhanded : handed (e :: es) = handed es := handed_cons hv
  cases h with
  | failed r' hresult hrefused hes =>
      exact .failed r' hresult ((refused_cons e).mpr (Or.inr hrefused)) (hhanded.trans hes)
  | created hrefused hes hfree =>
      refine .created ?_ (hhanded.trans hes) hfree
      rw [refused_cons]
      rintro (h' | h')
      · exact he h'
      · exact hrefused h'

theorem run_pthreadCreateWith
    (h : (threadMachine N H τ).Run t (pthreadCreateWith a stackSize func arg)
      (s.setMem a (some r)) es result s') :
    PlatformCreated a r stackSize func arg s es result s' := by
  unfold pthreadCreateWith at h
  rw [run_write] at h
  obtain ⟨es₁, rfl, h⟩ := h
  rw [ThreadState.setMem_mem_self, setMem_setMem] at h
  replace h := run_choice h
  obtain ⟨x, ok, s₂, es₂, hexec, rfl, h⟩ := h
  rw [run_pthreadAttrDestroy] at h
  obtain ⟨es₃, rfl, h⟩ := h
  obtain ⟨rfl, rfl, rfl⟩ := Machine.run_ret_iff.mp h
  rcases threadOpExec_pthreadCreate hexec with ⟨rfl, rfl⟩ | ⟨handle, hfree, rfl, rfl⟩
  · exact .failed _ TtError.noConfusion (by simp [refusal]) rfl
  · have hstarted : (s.setMem a (some (r.write (.state .created)))).spawn
        ⟨handle, a, stackSize, func, arg, .joinable⟩ =
          started s a { r with state := .created, handle := some handle }
            ⟨handle, a, stackSize, func, arg, .joinable⟩ := by
      simp [ThreadState.spawn, started, ThreadState.setMem, TtThread.write]
    rw [Option.map_some, hstarted]
    exact .created (by simp [refusal]) rfl hfree

theorem run_ttPlatformThreadCreate {attr : Option TtThreadAttr}
    (h : (threadMachine N H τ).Run t (ttPlatformThreadCreate (some a) attr (some func) arg)
      (s.setMem a (some r)) es result s') :
    PlatformCreated a r (askedStack attr) func arg s es result s' := by
  unfold ttPlatformThreadCreate at h
  replace h := run_choice h
  obtain ⟨x, ok, s₁, es₁, hexec, rfl, h⟩ := h
  have hs := threadOpExec_attr (Or.inl rfl) hexec
  subst hs
  cases ok with
  | false =>
      obtain ⟨rfl, rfl, rfl⟩ := Machine.run_ret_iff.mp h
      exact .failed r TtError.noConfusion (by simp [refusal]) rfl
  | true =>
      refine .cons (by simp [refusal]) rfl ?_
      cases attr with
      | none => exact run_pthreadCreateWith h
      | some attr =>
          simp only [Bool.not_true, Bool.false_eq_true, if_false] at h
          by_cases hsize : attr.stackSize > 0
          · have hasked : askedStack (some attr) = some attr.stackSize := if_pos hsize
            rw [if_pos hsize] at h
            replace h := run_choice h
            obtain ⟨x', ok, s₂, es₂, hexec', rfl, h⟩ := h
            have hs := threadOpExec_attr (Or.inr ⟨_, rfl⟩) hexec'
            subst hs
            cases ok with
            | false =>
                simp only [Bool.not_false, if_true] at h
                rw [run_pthreadAttrDestroy] at h
                obtain ⟨es₃, rfl, h⟩ := h
                obtain ⟨rfl, rfl, rfl⟩ := Machine.run_ret_iff.mp h
                exact .failed r TtError.noConfusion (by simp [refusal]) rfl
            | true =>
                rw [hasked]
                exact .cons (by simp [refusal]) rfl (run_pthreadCreateWith h)
          · have hasked : askedStack (some attr) = none := if_neg hsize
            rw [if_neg hsize] at h
            rw [hasked]
            exact run_pthreadCreateWith h

/-- The roll-back of `tt_thread_create`: the record still says that the thread is active. -/
theorem run_ttPlatformThreadDestroy (hr : s.mem a = some r) (hstate : r.state ≠ .terminated)
    (h : (threadMachine N H τ).Run t (ttPlatformThreadDestroy (some a)) s es result s') :
    s' = s ∧ ¬ Refused es ∧ handed es = [] := by
  unfold ttPlatformThreadDestroy at h
  rw [run_readState hr] at h
  obtain ⟨es₁, rfl, h⟩ := h
  rw [if_pos hstate] at h
  obtain ⟨rfl, -, rfl⟩ := Machine.run_ret_iff.mp h
  exact ⟨rfl, by simp [refusal], rfl⟩

/-- The whole roll-back frees the record and leaves its thread to run. -/
theorem run_rollback (hr : s.mem a = some r) (hstate : r.state ≠ .terminated) {e : TtError}
    (h : (threadMachine N H τ).Run t (ttPlatformThreadDestroy (some a) >>= fun _ =>
      .step (.inl (.free a)) fun _ => .ret e) s es result s') :
    result = e ∧ s' = s.setMem a none ∧ ¬ Refused es ∧ handed es = [] := by
  rw [Machine.run_bind_iff fun _ _ => rfl] at h
  obtain ⟨result₁, s₁, es₁, es₂, rfl, hdestroy, h⟩ := h
  obtain ⟨rfl, hundone, hhanded⟩ := run_ttPlatformThreadDestroy hr hstate hdestroy
  rw [run_free] at h
  obtain ⟨es₃, rfl, h⟩ := h
  obtain ⟨rfl, rfl, rfl⟩ := Machine.run_ret_iff.mp h
  refine ⟨rfl, rfl, by simp [refusal, hundone], ?_⟩
  rw [handed_append, hhanded]
  rfl

/-- Assignments to the fields of a record, one after the other. -/
def writes (a : Addr) (m : Prog (threadSig H) α) : List RecordWrite → Prog (threadSig H) α
  | [] => m
  | w :: ws => .step (.inl (.write a w)) fun _ => writes a m ws

theorem run_writes {m : Prog (threadSig H) α} (ws : List RecordWrite) :
    ∀ {es : List (threadSig H).Done} {r : TtThread H},
      (threadMachine N H τ).Run t (writes a m ws) (s.setMem a (some r)) es b s' →
      ∃ es₁ es₂, es = es₁ ++ es₂ ∧ ¬ Refused es₁ ∧ handed es₁ = [] ∧
        (threadMachine N H τ).Run t m (s.setMem a (some (ws.foldl TtThread.write r))) es₂ b s' := by
  induction ws with
  | nil =>
      intro es r h
      exact ⟨[], es, rfl, not_refused_nil, rfl, h⟩
  | cons w ws ih =>
      intro es r h
      unfold writes at h
      rw [run_write] at h
      obtain ⟨es₀, rfl, h⟩ := h
      rw [ThreadState.setMem_mem_self, setMem_setMem] at h
      obtain ⟨es₁, es₂, rfl, hrefused, hhanded, hrun⟩ := ih h
      refine ⟨_ :: es₁, es₂, rfl, ?_, hhanded, hrun⟩
      simpa [refusal] using hrefused

/-- The end of a `tt_thread_create`, the thread of the record at `a` having been started. -/
theorem run_registration {v : Addr} (hr : s.mem a = some r) (hstate : r.state ≠ .terminated)
    (h : (threadMachine N H τ).Run t (.step (.inr (.register (some a))) fun (result : TtError) =>
      if result ≠ .success then
        ttPlatformThreadDestroy (some a) >>= fun _ => .step (.inl (.free a)) fun _ => .ret result
      else .step (.inl (.writeVar v a)) fun _ => .ret .success) s es result s') :
    (∃ i, (s.table i).inUse = false ∧ result = .success ∧ ¬ Refused es ∧ handed es = [a] ∧
      s' = { s with vars := Function.update s.vars v (some a)
                    table := Function.update s.table i ⟨some a, true⟩ }) ∨
    ((∀ i, (s.table i).inUse = true) ∧ result = .notFound ∧ ¬ Refused es ∧ handed es = [] ∧
      s' = s.setMem a none) := by
  rw [run_register] at h
  obtain ⟨es₁, rfl, h⟩ := h
  rcases s.table.register_cases a with ⟨i, hslot, hregister⟩ | ⟨hfull, hregister⟩
  · -- a free slot
    rw [hregister] at h
    rw [if_neg (not_not_intro rfl), run_writeVar] at h
    obtain ⟨es₂, rfl, h⟩ := h
    obtain ⟨rfl, rfl, rfl⟩ := Machine.run_ret_iff.mp h
    exact Or.inl ⟨i, hslot, rfl, by simp [refusal], rfl, rfl⟩
  · -- the table is full, and the roll-back does nothing
    rw [hregister] at h
    have hnotFound : TtError.notFound ≠ .success := TtError.noConfusion
    rw [if_pos hnotFound] at h
    obtain ⟨rfl, rfl, hundone, hhanded⟩ := run_rollback hr hstate h
    exact Or.inr ⟨hfull, rfl, by simp [refusal, hundone], hhanded, rfl⟩

/-- The ways a `tt_thread_create` can go. -/
inductive Outcome (thread : Option Addr) (attr : Option TtThreadAttr) (func arg : Option Addr)
    (s : ThreadState N H) : List (threadSig H).Done → TtError → ThreadState N H → Prop
  | null (hnull : thread = none ∨ func = none) :
      Outcome thread attr func arg s [] .nullPointer s
  | refused {es : List (threadSig H).Done} {result : TtError} (hresult : result ≠ .success)
      (hrefused : Refused es) (hhanded : handed es = []) :
      Outcome thread attr func arg s es result s
  /-- The record is gone, its thread is not. -/
  | full {es : List (threadSig H).Done} {v f a : Addr} {h : H} (hthread : thread = some v)
      (hfunc : func = some f) (hrefused : ¬ Refused es) (hhanded : handed es = [])
      (hmem : s.mem a = none) (hfree : s.taken h = false) (hfull : ∀ i, (s.table i).inUse = true) :
      Outcome thread attr func arg s es .notFound
        { s with os := newThread attr f arg a h :: s.os }
  | created {es : List (threadSig H).Done} {v f a : Addr} {h : H} {i : Fin N}
      (hthread : thread = some v) (hfunc : func = some f) (hrefused : ¬ Refused es)
      (hhanded : handed es = [a]) (hmem : s.mem a = none) (hfree : s.taken h = false)
      (hslot : (s.table i).inUse = false) :
      Outcome thread attr func arg s es .success
        { started s a (newRecord attr f arg h) (newThread attr f arg a h) with
          vars := Function.update s.vars v (some a)
          table := Function.update s.table i ⟨some a, true⟩ }

/-- Nothing else can happen in a `tt_thread_create`. -/
theorem run_ttThreadCreate {thread : Option Addr} {attr : Option TtThreadAttr} {func : Option Addr}
    (h : (threadMachine N H τ).Run t (ttThreadCreate thread attr func arg) s es result s') :
    Outcome thread attr func arg s es result s' := by
  cases thread with
  | none =>
      obtain ⟨rfl, rfl, rfl⟩ := Machine.run_ret_iff.mp h
      exact .null (Or.inl rfl)
  | some v =>
  cases func with
  | none =>
      obtain ⟨rfl, rfl, rfl⟩ := Machine.run_ret_iff.mp h
      exact .null (Or.inr rfl)
  | some func =>
  unfold ttThreadCreate at h
  replace h := run_choice h
  obtain ⟨x, p, s₁, es₁, hexec, rfl, h⟩ := h
  rcases threadOpExec_malloc hexec with ⟨rfl, rfl⟩ | ⟨a, r, hmem, rfl, rfl⟩
  · obtain ⟨rfl, rfl, rfl⟩ := Machine.run_ret_iff.mp h
    exact .refused TtError.noConfusion (by simp [refusal]) rfl
  -- the record is filled in, and the OS asked for a thread
  replace h := run_writes
    [.func func, .arg arg, .state .created, .isActive true,
      .stackSize (attr.elim ttDefaultStackSize (·.stackSize)),
      .priority (attr.elim .normal (·.priority)), .name (attr.elim (some "tt_thread") (·.name))] h
  obtain ⟨es₂, es₃, rfl, hwrites, hhanded₂, h⟩ := h
  rw [Machine.run_bind_iff fun _ _ => rfl] at h
  obtain ⟨result₁, s₃, es₄, es₅, rfl, hcreate, h⟩ := h
  cases run_ttPlatformThreadCreate hcreate with
  | failed r' hresult hrefused hhanded =>
      rw [if_pos hresult, run_free] at h
      obtain ⟨es₆, rfl, h⟩ := h
      obtain ⟨rfl, rfl, rfl⟩ := Machine.run_ret_iff.mp h
      rw [setMem_setMem, setMem_eq_self hmem]
      refine .refused hresult (by simp [hrefused]) ?_
      rw [handed_cons rfl, handed_append, handed_append, hhanded₂, hhanded]
      rfl
  | @created handle hrefused hhanded hfree =>
      rw [if_neg (not_not_intro rfl)] at h
      have hr : (started s a (newRecord attr func arg handle)
          (newThread attr func arg a handle)).mem a = some (newRecord attr func arg handle) :=
        ThreadState.setMem_mem_self ..
      rcases run_registration hr TtThreadState.noConfusion h with
        ⟨i, hslot, rfl, hundone, hes, rfl⟩ | ⟨hfull, rfl, hundone, hes, rfl⟩
      · refine .created rfl rfl (by simp [refusal, hwrites, hrefused, hundone]) ?_ hmem hfree hslot
        rw [handed_cons rfl, handed_append, handed_append, hhanded₂, hhanded, hes]
        rfl
      · rw [started_free hmem]
        refine .full rfl rfl (by simp [refusal, hwrites, hrefused, hundone]) ?_ hmem hfree hfull
        rw [handed_cons rfl, handed_append, handed_append, hhanded₂, hhanded, hes]
        rfl

omit [DecidableEq H] in
/-- A thread that a failed call leaves behind. -/
theorem not_atomic_of_started {result : TtError} {o : OsThread H} (hresult : result ≠ .success)
    (hos : unreaped s' = o :: unreaped s) : ¬ Atomic s result s' := by
  intro hatomic
  exact List.cons_ne_self o (unreaped s) (hos.symm.trans (hatomic.os hresult))

omit [DecidableEq H] in
theorem atomic_of_unchanged {result : TtError} (hresult : result ≠ .success) :
    Atomic s result s :=
  ⟨fun _ => rfl, fun _ => rfl, fun _ => rfl, fun _ => rfl, fun h => absurd h hresult⟩

end ThreadCreate

open ThreadCreate in
/--
**A failing `tt_thread_create` has no effect, exactly if it does not find the table
full after the OS thread was started.**
-/
theorem ttThreadCreate_atomic_iff {N : Nat} {H τ : Type} [DecidableEq H] {t : τ}
    {thread : Option Addr} {attr : Option TtThreadAttr} {func arg : Option Addr}
    {s s' : ThreadState N H} {es : List (threadSig H).Done} {result : TtError}
    (h : (threadMachine N H τ).Run t (ttThreadCreate thread attr func arg) s es result s') :
    Atomic s result s' ↔
      thread = none ∨ func = none ∨ Refused es ∨ ∃ i, (s.table i).inUse = false := by
  cases run_ttThreadCreate h with
  | null hnull =>
      refine iff_of_true (atomic_of_unchanged TtError.noConfusion) ?_
      rcases hnull with h' | h'
      · exact Or.inl h'
      · exact Or.inr (Or.inl h')
  | refused hresult hrefused _ =>
      exact iff_of_true (atomic_of_unchanged hresult) (Or.inr (Or.inr (Or.inl hrefused)))
  | @full _ v f a handle hthread hfunc hrefused _ _ _ hfull =>
      refine iff_of_false (not_atomic_of_started (o := newThread attr f arg a handle)
        TtError.noConfusion (List.filter_cons_of_pos rfl)) ?_
      rw [hthread, hfunc]
      rintro (h' | h' | h' | ⟨i, hi⟩)
      · cases h'
      · cases h'
      · exact hrefused h'
      · rw [hfull i] at hi
        cases hi
  | @created _ v f a handle i _ _ _ _ _ _ hslot =>
      refine iff_of_true ⟨absurd rfl, absurd rfl, absurd rfl, absurd rfl, fun _ => ?_⟩
        (Or.inr (Or.inr (Or.inr ⟨i, hslot⟩)))
      exact ⟨newThread attr f arg a handle, rfl, rfl, i, hslot, Function.update_self ..⟩

open ThreadCreate in
/-- In a table with one slot, which is free. -/
theorem ttThreadCreate_atomic_first :
    ∃ es s', (threadMachine 1 Nat Unit).Run () (ttThreadCreate (some 1) none (some 7) none) .zero es
      .success s' ∧ Atomic .zero .success s' := by
  obtain ⟨es, s', hrun⟩ : ∃ es s', (threadMachine 1 Nat Unit).Run ()
      (ttThreadCreate (some 1) none (some 7) none) .zero es .success s' :=
    ⟨_, _, Machine.run_of_eval (createChoices 10 20 3) rfl⟩
  exact ⟨es, s', hrun, (ttThreadCreate_atomic_iff hrun).mpr (Or.inr (Or.inr (Or.inr ⟨0, rfl⟩)))⟩

open ThreadCreate in
/-- **On a full table the OS thread is left behind.** -/
theorem ttThreadCreate_full :
    ∃ es s es' s', (threadMachine 1 Nat Unit).Run ()
        (ttThreadInit >>= fun _ => ttThreadCreate (some 1) none (some 7) none) .zero es .success s ∧
      (threadMachine 1 Nat Unit).Run () (ttThreadCreate (some 2) none (some 7) none) s es'
        .notFound s' ∧ ¬ Atomic s .notFound s' := by
  refine ⟨_, _, _, _, Machine.run_of_eval (.ok :: createChoices 10 20 3) rfl,
    Machine.run_of_eval (createChoices 11 21 4) rfl, ?_⟩
  intro hatomic
  have hunreaped := hatomic.os TtError.noConfusion
  cases hunreaped

end TinyTools
