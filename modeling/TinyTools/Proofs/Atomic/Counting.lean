/-
Concurrent counting loses nothing.

A call of `tt_atomic_add` or `tt_atomic_sub` is one builtin, which adds to the atomic
and answers what it held.  So at any moment the atomic holds its first value plus what
the builtins so far have added, and that is also what the next one answers.

Each call performs its builtin exactly once: the calls whose builtin is still to come
are carried along as a list, and once no call is in progress there are none.  What is
left is arithmetic: sums do not depend on the order, and as long as fewer than `2 ^ 32`
ones have been added no two sums are congruent.
-/
import TinyTools.Proofs.Atomic
import Mathlib.Algebra.BigOperators.Group.List.Basic
import Mathlib.Algebra.Order.BigOperators.Group.List
import Mathlib.Algebra.Order.Group.Int
import Mathlib.Data.Int.ModEq

namespace TinyTools

open Interleave

/-- What a call adds. -/
def AtomicCall.amount {A E : Type} : AtomicCall A E → Int
  | .add _ value _ => value.toInt
  | .sub _ value _ => -value.toInt
  | .load _ _ | .store _ _ _ | .compareExchange _ _ _ _ => 0

/-- What a builtin adds. -/
def AtomicOp.amount {A E : Type} : AtomicOp A E → Int
  | .fetchAdd _ val _ => val.toInt
  | .fetchSub _ val _ => -val.toInt
  | .load _ _ | .store _ _ _ | .compareExchange _ _ _ _ _ _ => 0

namespace Counting

open Atomic (AtomicEvent)

variable {A E τ : Type}

/-! ### Sums over a trace -/

def callWeight (f : AtomicCall A E → Int) : AtomicEvent A E τ → Int
  | .call _ _ c => f c
  | .prim _ _ _ _ | .ret _ _ _ _ => 0

def primWeight (g : AtomicOp A E → Int) : AtomicEvent A E τ → Int
  | .prim _ _ p _ => g p
  | .call _ _ _ | .ret _ _ _ _ => 0

/-- The sum of `f` over the calls made. -/
def called (f : AtomicCall A E → Int) (tr : List (AtomicEvent A E τ)) : Int :=
  (tr.map (callWeight f)).sum

/-- The sum of `g` over the builtins performed. -/
def performed (g : AtomicOp A E → Int) (tr : List (AtomicEvent A E τ)) : Int :=
  (tr.map (primWeight g)).sum

@[simp] theorem called_snoc (f : AtomicCall A E → Int) (tr : List (AtomicEvent A E τ))
    (e : AtomicEvent A E τ) : called f (tr ++ [e]) = called f tr + callWeight f e := by
  simp [called]

@[simp] theorem performed_snoc (g : AtomicOp A E → Int) (tr : List (AtomicEvent A E τ))
    (e : AtomicEvent A E τ) : performed g (tr ++ [e]) = performed g tr + primWeight g e := by
  simp [performed]

/-- The value of an atomic that held `v` before the builtins of a trace, wrapping around. -/
def running (v : Int32) (tr : List (AtomicEvent A E τ)) : Int32 :=
  Int32.ofInt (v.toInt + performed AtomicOp.amount tr)

/-! ### The calls -/

/-- A call that adds to `a` or subtracts from it. -/
def Counts (a : A) : AtomicCall A E → Prop
  | .add atomic _ _ | .sub atomic _ _ => atomic = some a
  | .load _ _ | .store _ _ _ | .compareExchange _ _ _ _ => False

instance [DecidableEq A] (a : A) (c : AtomicCall A E) : Decidable (Counts a c) :=
  match c with
  | .add atomic _ _ | .sub atomic _ _ => inferInstanceAs (Decidable (atomic = some a))
  | .load _ _ | .store _ _ _ | .compareExchange _ _ _ _ => inferInstanceAs (Decidable False)

/-- Call `id` has performed its builtin, which answered `n`: the value that the builtins before it
had made. -/
def Answered (v : Int32) (tr : List (AtomicEvent A E τ)) (id : Nat) (t : τ) (c : AtomicCall A E)
    (n : Int32) : Prop :=
  ∃ before d after, tr = before ++ .prim id t d.1 d.2 :: after ∧ prims tr id = [d] ∧
    c.Performs d.1 ∧ n = running v before

theorem Answered.snoc {v : Int32} {tr : List (AtomicEvent A E τ)} {id : Nat} {t : τ}
    {c : AtomicCall A E} {n : Int32} (h : Answered v tr id t c n) {e : AtomicEvent A E τ}
    (he : prims (tr ++ [e]) id = prims tr id) : Answered v (tr ++ [e]) id t c n := by
  obtain ⟨before, d, after, rfl, hd, hrest⟩ := h
  exact ⟨before, d, after ++ [e], by simp, he.trans hd, hrest⟩

variable {a : A}

/-- The builtin of a call: it answers what the atomic held, which is what the call returns. -/
theorem exec_counts [DecidableEq A] [DecidableEq E] {c : AtomicCall A E} (hc : Counts a c)
    {p : AtomicOp A E} {k : p.Res → Prog (atomicSig A E) AtomicVal} (hbody : c.body = .step p k)
    {x : Unit} {t : τ} {r : p.Res} {s s' : AtomicMem A E}
    (hexec : atomicExec x t p s = some (r, s')) :
    k r = .ret (.int (s.value a)) ∧ c.Performs p ∧
      s'.value a = Int32.ofInt ((s.value a).toInt + p.amount) := by
  cases c with
  | add atomic n o =>
      cases hc
      cases hbody
      cases hexec
      refine ⟨rfl, ⟨a, rfl, rfl⟩, ?_⟩
      simp [AtomicOp.amount, atomicAdd]
  | sub atomic n o =>
      cases hc
      cases hbody
      cases hexec
      refine ⟨rfl, ⟨a, rfl, rfl⟩, ?_⟩
      simp [AtomicOp.amount, atomicSub, Int32.sub_eq_add_neg]
  | load | store | compareExchange => exact hc.elim

theorem body_ne_ret {c : AtomicCall A E} (hc : Counts a c) {x : AtomicVal} : c.body ≠ .ret x := by
  cases c with
  | add atomic n o =>
      cases hc
      rintro ⟨⟩
  | sub atomic n o =>
      cases hc
      rintro ⟨⟩
  | load | store | compareExchange => exact hc.elim

/-! ### The invariant -/

abbrev CountingPool (A E τ : Type) :=
  Pool (atomicSig A E) τ (AtomicMem A E) (AtomicCall A E) AtomicVal

/-- `t` is in the call `c` and has not performed its builtin. -/
def Ahead (pl : CountingPool A E τ) (t : τ) (c : AtomicCall A E) : Prop :=
  ∃ id, pl.view.calls t = some (id, c) ∧ pl.prog t = some c.body ∧ prims pl.view.trace id = []

/-- The calls whose builtin is still to come are those of `ahead`, so that calls made and builtins
performed differ by these. -/
structure Balanced (a : A) (pl : CountingPool A E τ) (ahead : List (τ × AtomicCall A E)) : Prop where
  once : (ahead.map Prod.fst).Nodup
  mem : ∀ t c, (t, c) ∈ ahead ↔ Ahead pl t c
  sum : ∀ (f : AtomicCall A E → Int) (g : AtomicOp A E → Int),
    (∀ c p, Counts a c → c.Performs p → g p = f c) →
    called f pl.view.trace = performed g pl.view.trace + (ahead.map fun x => f x.2).sum

structure Inv (a : A) (v : Int32) (pl : CountingPool A E τ) : Prop where
  value : pl.view.shared.value a = running v pl.view.trace
  counts : ∀ t id c, pl.view.calls t = some (id, c) → Counts a c
  thread : ∀ t id c, pl.view.calls t = some (id, c) → Ahead pl t c ∨
    ∃ n, pl.prog t = some (.ret (.int n)) ∧ Answered v pl.view.trace id t c n
  returned : ∀ id t c x, .ret id t c x ∈ pl.view.trace →
    ∃ n, x = .int n ∧ Answered v pl.view.trace id t c n
  balanced : ∃ ahead, Balanced a pl ahead

theorem inv_start {s : AtomicMem A E} :
    Inv a (s.value a) (Sys.start s : CountingPool A E τ) := by
  refine ⟨?_, ?_, ?_, ?_, [], List.nodup_nil, ?_, ?_⟩
  · simp [Sys.start, running, performed]
  · intro t id c hc
    cases hc
  · intro t id c hc
    cases hc
  · intro id t c x hret
    cases hret
  · rintro t c
    refine iff_of_false List.not_mem_nil ?_
    rintro ⟨id, hc, -⟩
    cases hc
  · intro f g _
    rfl

section Steps

variable {v : Int32} {pl : CountingPool A E τ} {t : τ} {id : Nat} {c : AtomicCall A E}

/-- Another thread's call is ahead of its builtin whatever `t` does. -/
theorem ahead_other {pl' : CountingPool A E τ} {u : τ} {c' : AtomicCall A E}
    (hcalls : pl'.view.calls u = pl.view.calls u) (hprog : pl'.prog u = pl.prog u)
    (hprims : ∀ id, pl.view.calls u = some (id, c') →
      prims pl'.view.trace id = prims pl.view.trace id) :
    Ahead pl' u c' ↔ Ahead pl u c' := by
  refine ⟨?_, ?_⟩
  · rintro ⟨id, hc, hp, hnil⟩
    rw [hcalls] at hc
    exact ⟨id, hc, hprog ▸ hp, hprims id hc ▸ hnil⟩
  · rintro ⟨id, hc, hp, hnil⟩
    exact ⟨id, hcalls.trans hc, hprog.trans hp, (hprims id hc).trans hnil⟩

variable [DecidableEq τ]

theorem Inv.call (h : Inv a v pl) (hb : Books pl.view) (hnone : pl.view.calls t = none)
    (hc : Counts a c) :
    Inv a v ⟨pl.view.call t c, Function.update pl.prog t (some c.body)⟩ := by
  obtain ⟨ahead, hahead⟩ := h.balanced
  have hself : Ahead ⟨pl.view.call t c, Function.update pl.prog t (some c.body)⟩ t c :=
    ⟨pl.view.next, by simp, by simp, by simpa using hb.fresh _ (Nat.le_refl _)⟩
  have hother : ∀ u, u ≠ t → ∀ c', Ahead ⟨pl.view.call t c, Function.update pl.prog t (some c.body)⟩
      u c' ↔ Ahead pl u c' :=
    fun u hu c' => ahead_other (by simp [hu]) (by simp [hu]) fun id _ => by simp
  refine ⟨?_, ?_, ?_, ?_, (t, c) :: ahead, ?_, ?_, ?_⟩
  · simpa [running, primWeight] using h.value
  · intro u id c' hu
    by_cases hut : u = t
    · subst hut
      have hcc : pl.view.next = id ∧ c = c' := by simpa using hu
      exact hcc.2 ▸ hc
    · exact h.counts u id c' (by simpa [hut] using hu)
  · intro u id c' hu
    by_cases hut : u = t
    · subst hut
      have hcc : pl.view.next = id ∧ c = c' := by simpa using hu
      exact Or.inl (hcc.2 ▸ hself)
    · rcases h.thread u id c' (by simpa [hut] using hu) with hbefore | ⟨n, hn, hanswered⟩
      · exact Or.inl ((hother u hut c').mpr hbefore)
      · exact Or.inr ⟨n, by simpa [hut] using hn, hanswered.snoc (by simp)⟩
  · intro id u c' x hret
    obtain ⟨n, rfl, hanswered⟩ := h.returned id u c' x (by simpa using hret)
    exact ⟨n, rfl, hanswered.snoc (by simp)⟩
  · refine List.nodup_cons.mpr ⟨?_, hahead.once⟩
    intro hmem
    obtain ⟨⟨u, c'⟩, hu, rfl⟩ := List.mem_map.mp hmem
    obtain ⟨id, hcalls, -⟩ := (hahead.mem u c').mp hu
    rw [hnone] at hcalls
    cases hcalls
  · intro u c'
    by_cases hut : u = t
    · subst hut
      refine ⟨?_, ?_⟩
      · intro hmem
        rcases List.mem_cons.mp hmem with heq | hmem
        · cases heq
          exact hself
        · obtain ⟨id, hcalls, -⟩ := (hahead.mem u c').mp hmem
          rw [hnone] at hcalls
          cases hcalls
      · rintro ⟨id, hcalls, -⟩
        have hcc : pl.view.next = id ∧ c = c' := by simpa using hcalls
        rw [hcc.2]
        exact List.mem_cons_self
    · rw [hother u hut c', ← hahead.mem u c']
      simp [hut]
  · intro f g hfg
    have hsum := hahead.sum f g hfg
    simp [callWeight, primWeight, hsum]
    omega

theorem Inv.prim [DecidableEq A] [DecidableEq E] (h : Inv a v pl) (hb : Books pl.view)
    (hcall : pl.view.calls t = some (id, c)) {p : AtomicOp A E}
    {k : p.Res → Prog (atomicSig A E) AtomicVal} (hprog : pl.prog t = some (.step p k)) {x : Unit}
    {r : p.Res} {s : AtomicMem A E} (hexec : atomicExec x t p pl.view.shared = some (r, s)) :
    Inv a v ⟨pl.view.prim id t p r s, Function.update pl.prog t (some (k r))⟩ := by
  obtain ⟨ahead, hahead⟩ := h.balanced
  have hc := h.counts t id c hcall
  -- a call that has performed its builtin has nothing left but to return
  obtain ⟨hbody, hnil⟩ : c.body = .step p k ∧ prims pl.view.trace id = [] := by
    rcases h.thread t id c hcall with ⟨id', hcall', hbody, hnil⟩ | ⟨n, hn, -⟩
    · rw [hcall] at hcall'
      cases hcall'
      rw [hprog] at hbody
      exact ⟨(Option.some.inj hbody).symm, hnil⟩
    · rw [hprog] at hn
      cases hn
  obtain ⟨hret, hperforms, hvalue⟩ := exec_counts hc hbody hexec
  have hprims : ∀ id', id' ≠ id → prims (pl.view.trace ++ [.prim id t p r]) id'
      = prims pl.view.trace id' := fun id' hid => prims_snoc_of_ne _ (Ne.symm hid) _ _ _
  have hself : Answered v (pl.view.trace ++ [.prim id t p r]) id t c (pl.view.shared.value a) := by
    refine ⟨pl.view.trace, ⟨p, r⟩, [], rfl, ?_, hperforms, h.value⟩
    rw [prims_snoc_self, hnil]
    rfl
  have hkept : ∀ {id' : Nat} {u : τ} {c' : AtomicCall A E} {n : Int32},
      Answered v pl.view.trace id' u c' n →
        Answered v (pl.view.trace ++ [.prim id t p r]) id' u c' n := by
    intro id' u c' n hanswered
    refine hanswered.snoc (hprims id' ?_)
    rintro rfl
    obtain ⟨before, d, after, -, hd, -⟩ := hanswered
    rw [hnil] at hd
    cases hd
  have hother : ∀ u, u ≠ t → ∀ c',
      Ahead ⟨pl.view.prim id t p r s, Function.update pl.prog t (some (k r))⟩ u c' ↔
        Ahead pl u c' := by
    intro u hu c'
    refine ahead_other rfl (by simp [hu]) fun id' hid' => hprims id' ?_
    rintro rfl
    exact hu (hb.apart u t id' c' c hid' hcall)
  have htaken : ∀ c',
      ¬ Ahead ⟨pl.view.prim id t p r s, Function.update pl.prog t (some (k r))⟩ t c' := by
    rintro c' ⟨id', hcall', -, hnil'⟩
    rw [View.prim_calls, hcall] at hcall'
    cases hcall'
    rw [View.prim_trace, prims_snoc_self] at hnil'
    exact absurd hnil' (List.append_ne_nil_of_right_ne_nil _ (List.cons_ne_nil _ _))
  obtain ⟨before, after, hsplit⟩ :=
    List.mem_iff_append.mp ((hahead.mem t c).mpr ⟨id, hcall, by rw [hprog, hbody], hnil⟩)
  have hnodup : (t :: (before.map Prod.fst ++ after.map Prod.fst)).Nodup := by
    rw [← List.perm_middle.nodup_iff]
    simpa [hsplit] using hahead.once
  refine ⟨?_, h.counts, ?_, ?_, before ++ after, ?_, ?_, ?_⟩
  · show s.value a = running v _
    rw [hvalue, h.value, running, running, View.prim_trace, performed_snoc,
      Int32.ofInt_add _ p.amount, Int32.ofInt_toInt, ← Int32.ofInt_add, add_assoc]
    rfl
  · intro u id' c' hu
    by_cases hut : u = t
    · subst hut
      rw [View.prim_calls, hcall] at hu
      cases hu
      exact Or.inr ⟨_, by simp [hret], hself⟩
    · rcases h.thread u id' c' hu with hbefore | ⟨n, hn, hanswered⟩
      · exact Or.inl ((hother u hut c').mpr hbefore)
      · exact Or.inr ⟨n, by simpa [hut] using hn, hkept hanswered⟩
  · intro id' u c' x hret'
    obtain ⟨n, rfl, hanswered⟩ := h.returned id' u c' x (by simpa using hret')
    exact ⟨n, rfl, hkept hanswered⟩
  · rw [List.map_append]
    exact (List.nodup_cons.mp hnodup).2
  · intro u c'
    by_cases hut : u = t
    · subst hut
      refine iff_of_false (fun hmem => (List.nodup_cons.mp hnodup).1 ?_) (htaken c')
      rw [← List.map_append]
      exact List.mem_map_of_mem hmem
    · rw [hother u hut c', ← hahead.mem u c', hsplit]
      simp [hut]
  · intro f g hfg
    have hsum := hahead.sum f g hfg
    have hfp := hfg c p hc hperforms
    rw [hsplit] at hsum
    simp only [List.map_append, List.map_cons, List.sum_append, List.sum_cons] at hsum
    simp only [View.prim_trace, called_snoc, performed_snoc, callWeight, primWeight, List.map_append,
      List.sum_append]
    omega

theorem Inv.ret (h : Inv a v pl) (hcall : pl.view.calls t = some (id, c)) {x : AtomicVal}
    (hprog : pl.prog t = some (.ret x)) :
    Inv a v ⟨pl.view.ret id t c x, Function.update pl.prog t none⟩ := by
  obtain ⟨ahead, hahead⟩ := h.balanced
  obtain ⟨n, rfl, hself⟩ : ∃ n, x = .int n ∧ Answered v pl.view.trace id t c n := by
    rcases h.thread t id c hcall with ⟨id', hcall', hbody, hnil⟩ | ⟨n, hn, hanswered⟩
    · rw [hprog] at hbody
      exact absurd (Option.some.inj hbody).symm (body_ne_ret (h.counts t id c hcall))
    · rw [hprog] at hn
      cases hn
      exact ⟨n, rfl, hanswered⟩
  have hkept : ∀ {id' : Nat} {u : τ} {c' : AtomicCall A E} {m : Int32},
      Answered v pl.view.trace id' u c' m →
      Answered v (pl.view.trace ++ [.ret id t c (.int n)]) id' u c' m :=
    fun hanswered => hanswered.snoc (prims_snoc_ret _ _ _ _ _ _)
  have hother : ∀ u c', Ahead ⟨pl.view.ret id t c (.int n), Function.update pl.prog t none⟩ u c' ↔
      Ahead pl u c' := by
    intro u c'
    by_cases hut : u = t
    · subst hut
      refine iff_of_false ?_ ?_
      · rintro ⟨id', hcall', -⟩
        simp at hcall'
      · rintro ⟨id', hcall', hbody, -⟩
        rw [hcall] at hcall'
        cases hcall'
        rw [hprog] at hbody
        exact body_ne_ret (h.counts u id c hcall) (Option.some.inj hbody).symm
    · exact ahead_other (by simp [hut]) (by simp [hut]) fun id' _ => prims_snoc_ret _ _ _ _ _ _
  refine ⟨?_, ?_, ?_, ?_, ahead, hahead.once, ?_, ?_⟩
  · simpa [running, primWeight] using h.value
  · intro u id' c' hu
    by_cases hut : u = t
    · subst hut
      simp at hu
    · exact h.counts u id' c' (by simpa [hut] using hu)
  · intro u id' c' hu
    by_cases hut : u = t
    · subst hut
      simp at hu
    · rcases h.thread u id' c' (by simpa [hut] using hu) with hbefore | ⟨m, hm, hanswered⟩
      · exact Or.inl ((hother u c').mpr hbefore)
      · exact Or.inr ⟨m, by simpa [hut] using hm, hkept hanswered⟩
  · intro id' u c' y hret
    rcases List.mem_append.mp hret with hold | hnew
    · obtain ⟨m, rfl, hanswered⟩ := h.returned id' u c' y hold
      exact ⟨m, rfl, hkept hanswered⟩
    · cases List.mem_singleton.mp hnew
      exact ⟨n, rfl, hkept hself⟩
  · intro u c'
    rw [hother u c', hahead.mem u c']
  · intro f g hfg
    have hsum := hahead.sum f g hfg
    simp [callWeight, primWeight, hsum]

end Steps

/-! ### Runs -/

section Runs

variable [DecidableEq A] [DecidableEq E] [DecidableEq τ] {s : AtomicMem A E}
  {pl : CountingPool A E τ}

theorem inv_of_reach
    (h : (atomicSys (atomicMachine A E τ)).Reach (fun _ _ c => Counts a c) s pl) :
    Inv a (s.value a) pl := by
  induction h with
  | start => exact inv_start
  | @step pl pl' hreach l hok hstep ih =>
      cases l with
      | call t c =>
          obtain ⟨hnone, rfl⟩ := Sys.step_call hstep
          exact ih.call hreach.books hnone hok
      | prim t x =>
          obtain ⟨id, c, p, k, r, s, hc, hp, hexec, rfl⟩ := Sys.step_prim hstep
          exact ih.prim hreach.books hc hp (x := x) hexec
      | ret t =>
          obtain ⟨id, c, x, hc, hp, rfl⟩ := Sys.step_ret hstep
          exact ih.ret hc hp

/-- A thread in a call can always go on. -/
theorem Inv.progress {v : Int32} (h : Inv a v pl) {t : τ} {id : Nat} {c : AtomicCall A E}
    (hc : pl.view.calls t = some (id, c)) :
    (∃ pl', (atomicSys (atomicMachine A E τ)).step (.prim t ()) pl = some pl') ∨
      ∃ pl', (atomicSys (atomicMachine A E τ)).step (.ret t) pl = some pl' := by
  rcases h.thread t id c hc with ⟨-, -, hbody, -⟩ | ⟨n, hn, -⟩
  · have hcounts := h.counts t id c hc
    cases c with
    | add atomic n o =>
        cases hcounts
        exact Or.inl ⟨_, Sys.step_prim_eq hc hbody rfl rfl⟩
    | sub atomic n o =>
        cases hcounts
        exact Or.inl ⟨_, Sys.step_prim_eq hc hbody rfl rfl⟩
    | load | store | compareExchange => exact hcounts.elim
  · exact Or.inr ⟨_, Sys.step_ret_eq hc hn⟩

omit [DecidableEq A] [DecidableEq E] [DecidableEq τ] in
/-- Once no call is in progress, every call has performed its builtin. -/
theorem Inv.called_eq {v : Int32} (h : Inv a v pl) (hidle : ∀ t, pl.view.calls t = none)
    {f : AtomicCall A E → Int} {g : AtomicOp A E → Int}
    (hfg : ∀ c p, Counts a c → c.Performs p → g p = f c) :
    called f pl.view.trace = performed g pl.view.trace := by
  obtain ⟨ahead, hahead⟩ := h.balanced
  have hnil : ahead = [] := by
    refine List.eq_nil_iff_forall_not_mem.mpr fun x hx => ?_
    obtain ⟨id, hc, -⟩ := (hahead.mem x.1 x.2).mp hx
    rw [hidle] at hc
    cases hc
  have hsum := hahead.sum f g hfg
  rw [hnil] at hsum
  simpa using hsum

end Runs

/-- A call adds what its builtin does. -/
theorem amount_performs (c : AtomicCall A E) (p : AtomicOp A E) (hc : Counts a c)
    (hp : c.Performs p) : p.amount = c.amount := by
  cases c with
  | add atomic n o =>
      obtain ⟨x, -, rfl⟩ := hp
      rfl
  | sub atomic n o =>
      obtain ⟨x, -, rfl⟩ := hp
      rfl
  | load | store | compareExchange => exact hc.elim

/-! ### The same calls in another order -/

/-- A call with the thread that makes it. -/
def made : AtomicEvent A E τ → Option (τ × AtomicCall A E)
  | .call _ t c => some (t, c)
  | .prim _ _ _ _ | .ret _ _ _ _ => none

/-- The calls of thread `t`, in its order. -/
def callsOf [DecidableEq τ] (tr : List (AtomicEvent A E τ)) (t : τ) : List (AtomicCall A E) :=
  ((tr.filterMap made).filter fun x => x.1 = t).map Prod.snd

theorem called_made (f : AtomicCall A E → Int) (tr : List (AtomicEvent A E τ)) :
    called f tr = ((tr.filterMap made).map fun x => f x.2).sum := by
  induction tr with
  | nil => rfl
  | cons e tr ih =>
      unfold called at ih ⊢
      rw [List.map_cons, List.sum_cons, ih]
      cases e with
      | call id t c => simp [callWeight, made]
      | prim id t p r => rw [List.filterMap_cons_none rfl, callWeight, Int.zero_add]
      | ret id t c x => rw [List.filterMap_cons_none rfl, callWeight, Int.zero_add]

theorem called_congr [DecidableEq A] [DecidableEq E] [DecidableEq τ]
    {tr tr' : List (AtomicEvent A E τ)} (h : ∀ t, callsOf tr t = callsOf tr' t)
    (f : AtomicCall A E → Int) : called f tr = called f tr' := by
  have hcount : ∀ (l : List (τ × AtomicCall A E)) t c,
      l.count (t, c) = ((l.filter fun x => x.1 = t).map Prod.snd).count c := by
    intro l t c
    induction l with
    | nil => rfl
    | cons x l ih =>
        obtain ⟨u, c'⟩ := x
        by_cases hu : u = t
        · subst hu
          simp [List.count_cons, ih]
        · simp [ih, hu]
  have hperm : (tr.filterMap made).Perm (tr'.filterMap made) := by
    refine List.perm_iff_count.mpr fun x => ?_
    rw [hcount _ x.1 x.2, hcount _ x.1 x.2]
    exact congrArg _ (h x.1)
  rw [called_made, called_made]
  exact (hperm.map _).sum_eq

/-! ### Distinct answers -/

theorem performed_nonneg {g : AtomicOp A E → Int} (hg : ∀ p, 0 ≤ g p)
    (tr : List (AtomicEvent A E τ)) : 0 ≤ performed g tr := by
  refine List.sum_nonneg fun n hn => ?_
  obtain ⟨e, -, rfl⟩ := List.mem_map.mp hn
  cases e with
  | prim id t p r => exact hg p
  | _ => exact Int.le_refl 0

/-- Where each builtin adds one, the value counts them. -/
theorem performed_ones {tr : List (AtomicEvent A E τ)}
    (h : ∀ id t p r, .prim id t p r ∈ tr → p.amount = 1) :
    performed AtomicOp.amount tr = performed (fun _ => 1) tr := by
  unfold performed
  congr 1
  refine List.map_congr_left fun e he => ?_
  cases e with
  | prim id t p r => exact h id t p r he
  | _ => rfl

/-- Fewer than `2 ^ 32` apart, two different numbers wrap around to different values. -/
theorem ofInt_ne {v m n : Int} (hlt : m < n) (hn : n < m + 2 ^ 32) :
    Int32.ofInt (v + m) ≠ Int32.ofInt (v + n) := by
  intro heq
  have hbmod := congrArg Int32.toInt heq
  rw [Int32.toInt_ofInt, Int32.toInt_ofInt] at hbmod
  have hdiff := Int.bmod_eq_bmod_iff_bmod_sub_eq_zero.mp hbmod
  have hdvd : ((Int32.size : Nat) : Int) ∣ v + m - (v + n) := Int.dvd_of_bmod_eq_zero hdiff
  have hsize : ((Int32.size : Nat) : Int) = 2 ^ 32 := rfl
  rw [hsize] at hdvd
  omega

/-- Of two builtins the later one answers another value. -/
theorem running_ne {v : Int32} {before mid after : List (AtomicEvent A E τ)} {id id' : Nat}
    {t t' : τ} {d d' : (atomicSig A E).Done} {tr : List (AtomicEvent A E τ)}
    (htr : tr = before ++ .prim id t d.1 d.2 :: (mid ++ .prim id' t' d'.1 d'.2 :: after))
    (hones : ∀ id t p r, .prim id t p r ∈ tr → p.amount = 1)
    (hle : performed (fun _ => 1) tr ≤ 2 ^ 32) :
    running v before ≠ running v (before ++ .prim id t d.1 d.2 :: mid) := by
  have hfirst : performed AtomicOp.amount before = performed (fun _ => 1) before :=
    performed_ones fun id t p r hp => hones id t p r (htr ▸ by simp [hp])
  have hsecond : performed AtomicOp.amount (before ++ .prim id t d.1 d.2 :: mid)
      = performed (fun _ => 1) (before ++ .prim id t d.1 d.2 :: mid) := by
    refine performed_ones fun id t p r hp => hones id t p r ?_
    rw [htr]
    rcases List.mem_append.mp hp with hp | hp
    · simp [hp]
    · rcases List.mem_cons.mp hp with hp | hp
      · simp [hp]
      · simp [hp]
  have hnonneg : ∀ l : List (AtomicEvent A E τ), 0 ≤ performed (fun _ => 1) l :=
    performed_nonneg fun _ => Int.one_nonneg
  have hbefore := hnonneg before
  have hmid := hnonneg mid
  have hafter := hnonneg after
  unfold running
  rw [hfirst, hsecond]
  simp only [htr, performed, List.map_append, List.map_cons, List.sum_append, List.sum_cons,
    primWeight] at hle hbefore hmid hafter ⊢
  exact ofInt_ne (by omega) (by omega)

theorem answered_ne {v : Int32} {tr : List (AtomicEvent A E τ)} {id id' : Nat} {t t' : τ}
    {c c' : AtomicCall A E} {n n' : Int32} (h : Answered v tr id t c n)
    (h' : Answered v tr id' t' c' n') (hid : id ≠ id')
    (hones : ∀ id t p r, .prim id t p r ∈ tr → p.amount = 1)
    (hle : performed (fun _ => 1) tr ≤ 2 ^ 32) : n ≠ n' := by
  obtain ⟨before, d, after, htr, -, -, rfl⟩ := h
  obtain ⟨before', d', after', htr', -, -, rfl⟩ := h'
  -- the builtins are two events of the trace, so one comes first
  rcases List.append_eq_append_iff.mp (htr.symm.trans htr') with ⟨mid, rfl, hrest⟩ | ⟨mid, rfl, hrest⟩
  · cases mid with
    | nil => exact absurd (Event.prim.inj (List.cons.inj hrest).1).1 hid
    | cons e mid =>
        cases hrest
        exact running_ne htr hones hle
  · cases mid with
    | nil => exact absurd (Event.prim.inj (List.cons.inj hrest).1).1.symm hid
    | cons e mid =>
        cases hrest
        exact (running_ne htr' hones hle).symm

/-- What the calls of a trace of counting calls add to. -/
structure Counted (a : A) (v : Int32) (pl : CountingPool A E τ) : Prop where
  value : pl.view.shared.value a = running v pl.view.trace
  answers : ∀ id t c x, .ret id t c x ∈ pl.view.trace →
    ∃ n, x = .int n ∧ Answered v pl.view.trace id t c n
  final : (∀ t, pl.view.calls t = none) →
    pl.view.shared.value a = Int32.ofInt (v.toInt + called AtomicCall.amount pl.view.trace)
  distinct : (∀ id t c, .call id t c ∈ pl.view.trace → c.amount = 1) →
    called (fun _ => 1) pl.view.trace ≤ 2 ^ 32 →
    ∀ id t c x id' t' c' x', .ret id t c x ∈ pl.view.trace → .ret id' t' c' x' ∈ pl.view.trace →
      id ≠ id' → x ≠ x'

theorem counted [DecidableEq A] [DecidableEq E] [DecidableEq τ] {s : AtomicMem A E}
    {pl : CountingPool A E τ}
    (h : (atomicSys (atomicMachine A E τ)).Reach (fun _ _ c => Counts a c) s pl) :
    Counted a (s.value a) pl := by
  have hinv := inv_of_reach h
  refine ⟨hinv.value, hinv.returned, ?_, ?_⟩
  · intro hidle
    rw [hinv.value, running, hinv.called_eq hidle amount_performs]
  · intro hcalls hle id t c x id' t' c' x' hret hret' hid
    have hones : ∀ id t p r, .prim id t p r ∈ pl.view.trace → p.amount = 1 := by
      intro id t p r hp
      obtain ⟨c, hc, hcp⟩ := h.prim_mem (fun c => c.body_every) id t p r hp
      have hcounts : Counts a c := h.call_mem (P := Counts a) (fun _ _ _ hok => hok) id t c hc
      rw [amount_performs c p hcounts hcp, hcalls id t c hc]
    have hperformed : performed (fun _ => 1) pl.view.trace ≤ 2 ^ 32 := by
      obtain ⟨ahead, hahead⟩ := hinv.balanced
      have hsum := hahead.sum (fun _ => 1) (fun _ => 1) fun _ _ _ _ => rfl
      have hlength : (ahead.map fun _ => (1 : Int)).sum = ahead.length := by simp
      omega
    obtain ⟨n, rfl, hn⟩ := hinv.returned id t c x hret
    obtain ⟨n', rfl, hn'⟩ := hinv.returned id' t' c' x' hret'
    intro heq
    exact answered_ne hn hn' hid hones hperformed (AtomicVal.int.inj heq)

end Counting

/--
**Concurrent atomic counting loses nothing.** However any number of threads add to and
subtract from an atomic that was initialised to `v`, it holds `v` plus what the
builtins performed so far have added, modulo `2 ^ 32`; every call that returned
performed one builtin and answers the value that the ones before it had made; and
every call can go on.  Once all calls have returned the value is `v` plus everything
they added, the same for every interleaving of the same calls.  If every call adds 1
and there are at most `2 ^ 32` of them, all answers are different.
-/
theorem ttAtomic_counting {A E τ : Type} [DecidableEq A] [DecidableEq E] [DecidableEq τ] {a : A}
    {v : Int32} {s₀ s : AtomicMem A E} (hinit : ttAtomicInit (some a) v s₀ = (.success, s))
    {pl : Counting.CountingPool A E τ}
    (h : (atomicSys (atomicMachine A E τ)).Reach (fun _ _ c => Counting.Counts a c) s pl) :
    Counting.Counted a v pl ∧
      (∀ t id c, pl.view.calls t = some (id, c) →
        (∃ pl', (atomicSys (atomicMachine A E τ)).step (.prim t ()) pl = some pl') ∨
          ∃ pl', (atomicSys (atomicMachine A E τ)).step (.ret t) pl = some pl') ∧
      ∀ pl' : Counting.CountingPool A E τ,
        (atomicSys (atomicMachine A E τ)).Reach (fun _ _ c => Counting.Counts a c) s pl' →
        (∀ t, pl.view.calls t = none) → (∀ t, pl'.view.calls t = none) →
        (∀ t, Counting.callsOf pl.view.trace t = Counting.callsOf pl'.view.trace t) →
        pl'.view.shared.value a = pl.view.shared.value a := by
  have hv : s.value a = v := by
    have hs : s = { s₀ with value := Function.update s₀.value a v } := (Prod.mk.inj hinit).2.symm
    rw [hs]
    exact Function.update_self ..
  subst hv
  refine ⟨Counting.counted h, ?_, ?_⟩
  · intro t id c hc
    exact (Counting.inv_of_reach h).progress hc
  · intro pl' h' hidle hidle' hsame
    rw [(Counting.counted h').final hidle', (Counting.counted h).final hidle,
      Counting.called_congr hsame]

/-- Two threads that count down past the end of the range. -/
theorem ttAtomic_counting_wraps :
    ∃ pl : Counting.CountingPool Unit Unit Bool,
      Counting.Counted () (-2147483647) pl ∧ pl.view.shared.value () = 2147483647 := by
  have hrun : ((atomicSys (atomicMachine Unit Unit Bool)).run (fun _ _ c => Counting.Counts () c)
      [.call true (.sub (some ()) 1 .relaxed), .call false (.sub (some ()) 1 .relaxed),
        .prim false (), .prim true (), .ret true, .ret false]
      (Sys.start ⟨fun _ => -2147483647, fun _ => 0⟩)).isSome = true := rfl
  have hreach := Sys.Reach.run _ .start (Option.some_get hrun).symm
  have hinit : ttAtomicInit (some ()) (-2147483647) (⟨fun _ => 0, fun _ => 0⟩ : AtomicMem Unit Unit)
      = (.success, ⟨fun _ => -2147483647, fun _ => 0⟩) := by
    refine Prod.ext rfl ?_
    show AtomicMem.mk _ _ = AtomicMem.mk _ _
    congr 1
  exact ⟨_, (ttAtomic_counting hinit hreach).1, rfl⟩

end TinyTools
