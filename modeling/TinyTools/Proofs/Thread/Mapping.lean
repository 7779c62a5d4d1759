/-
From priority levels to the priorities of the system.

Over the integers the four levels are spread over the range of the system in their
order.  The source computes with `int`s: the width of the range has to be one for
`TT_THREAD_PRIORITY_NORMAL`, and twice the width for `TT_THREAD_PRIORITY_HIGH`.
-/
import TinyTools.Platform.Linux.Priority

namespace TinyTools

open Interleave

namespace ThreadMapping

variable {N : Nat} {H τ α : Type} [DecidableEq H] {cfg : SchedConfig} {t : τ}
  {s s' : SchedState N H} {es : List (schedSig H).Done}

instance : Nonempty (SchedChoice H) := ⟨.thread .ok⟩

/-! ### Over the integers -/

/-- The priority a level is mapped to. -/
def mapped (cfg : SchedConfig) : TtThreadPriority → Int
  | .low => cfg.minPrio
  | .normal => cfg.minPrio + (cfg.maxPrio - cfg.minPrio) / 3
  | .high => cfg.minPrio + 2 * (cfg.maxPrio - cfg.minPrio) / 3
  | .realtime => cfg.maxPrio

theorem mapped_range (cfg : SchedConfig) (level : TtThreadPriority) :
    cfg.minPrio ≤ mapped cfg level ∧ mapped cfg level ≤ cfg.maxPrio := by
  have hle := cfg.le
  cases level <;> simp only [mapped] <;> omega

/-- A greater argument is not mapped to a smaller priority. -/
theorem mapped_mono (cfg : SchedConfig) {m n : Int} {level level' : TtThreadPriority}
    (hm : TtThreadPriority.ofInt m = some level) (hn : TtThreadPriority.ofInt n = some level')
    (hmn : m ≤ n) : mapped cfg level ≤ mapped cfg level' := by
  obtain rfl := TtThreadPriority.ofInt_eq_some.mp hm
  obtain rfl := TtThreadPriority.ofInt_eq_some.mp hn
  have hle := cfg.le
  cases level <;> cases level' <;> simp only [mapped, TtThreadPriority.toInt] at hmn ⊢ <;> omega

/-! ### In the source -/

/-- Every operation on the way to the system's priority has an `int` for its result. -/
def Fits (cfg : SchedConfig) : TtThreadPriority → Prop
  | .low | .realtime => True
  | .normal => cfg.maxPrio - cfg.minPrio ≤ intMax
  | .high => 2 * (cfg.maxPrio - cfg.minPrio) ≤ intMax

instance (cfg : SchedConfig) (level : TtThreadPriority) : Decidable (Fits cfg level) :=
  match level with
  | .low | .realtime => inferInstanceAs (Decidable True)
  | .normal => inferInstanceAs (Decidable (_ ≤ _))
  | .high => inferInstanceAs (Decidable (_ ≤ _))

/-- Some operation has overflown. -/
def Overflown (es : List (schedSig H).Done) : Prop := ∃ e ∈ es, e.1 = .inl .overflow

omit [DecidableEq H] in
theorem overflown_append {es' : List (schedSig H).Done} :
    Overflown (es ++ es') ↔ Overflown es ∨ Overflown es' := by
  simp [Overflown, or_and_right, exists_or]

omit [DecidableEq H] in
theorem Overflown.append_left {es' : List (schedSig H).Done} (h : Overflown es) :
    Overflown (es ++ es') :=
  overflown_append.mpr (Or.inl h)

omit [DecidableEq H] in
theorem Overflown.append_right {es' : List (schedSig H).Done} (h : Overflown es) :
    Overflown (es' ++ es) :=
  overflown_append.mpr (Or.inr h)

theorem run_intResult {n p : Int}
    (h : (schedMachine cfg N H τ).Run t (intResult n) s es p s') :
    s' = s ∧ ((intMin ≤ n ∧ n ≤ intMax) ∧ es = [] ∧ p = n ∨
      ¬ (intMin ≤ n ∧ n ≤ intMax) ∧ Overflown es) := by
  unfold intResult at h
  by_cases hn : intMin ≤ n ∧ n ≤ intMax
  · rw [if_pos hn] at h
    obtain ⟨rfl, rfl, rfl⟩ := Machine.run_ret_iff.mp h
    exact ⟨rfl, Or.inl ⟨hn, rfl, rfl⟩⟩
  · rw [if_neg hn] at h
    replace h := (Machine.run_step_iff fun _ => rfl).mp h
    obtain ⟨x, n', s₁, es₁, hexec, rfl, h⟩ := h
    obtain ⟨rfl, rfl, rfl⟩ := Machine.run_ret_iff.mp h
    have hsame : s₁ = s := by
      cases x <;> cases hexec
      rfl
    exact ⟨hsame, Or.inr ⟨hn, _, .head _, rfl⟩⟩

/-- The `switch` comes to the priority over the integers, unless some operation overflows. -/
theorem run_systemPriority {level : TtThreadPriority} {p : Int}
    (h : (schedMachine cfg N H τ).Run t (systemPriority level cfg.minPrio cfg.maxPrio) s es p s') :
    s' = s ∧ (Fits cfg level ∧ es = [] ∧ p = mapped cfg level ∨
      ¬ Fits cfg level ∧ Overflown es) := by
  have hle := cfg.le
  have hlower := cfg.lower
  have hupper := cfg.upper
  cases level with
  | low =>
      obtain ⟨rfl, rfl, rfl⟩ := Machine.run_ret_iff.mp h
      exact ⟨rfl, Or.inl ⟨trivial, rfl, rfl⟩⟩
  | realtime =>
      obtain ⟨rfl, rfl, rfl⟩ := Machine.run_ret_iff.mp h
      exact ⟨rfl, Or.inl ⟨trivial, rfl, rfl⟩⟩
  | normal =>
      simp only [systemPriority] at h
      rw [Machine.run_bind_iff fun _ _ => rfl] at h
      obtain ⟨range, s₁, es₁, es₂, rfl, hrun₁, h⟩ := h
      obtain ⟨rfl, hrange⟩ := run_intResult hrun₁
      obtain ⟨rfl, hsum⟩ := run_intResult h
      refine ⟨rfl, ?_⟩
      rcases hrange with ⟨⟨-, hfits⟩, rfl, rfl⟩ | ⟨hover, hes₁⟩
      · have hdiv : (cfg.maxPrio - cfg.minPrio).tdiv 3 = (cfg.maxPrio - cfg.minPrio) / 3 :=
          Int.tdiv_eq_ediv_of_nonneg (by omega)
        rw [hdiv] at hsum
        rcases hsum with ⟨-, rfl, rfl⟩ | ⟨hout, -⟩
        · exact Or.inl ⟨hfits, rfl, rfl⟩
        · exact absurd ⟨by omega, by omega⟩ hout
      · refine Or.inr ⟨fun hfits => hover ⟨?_, hfits⟩, hes₁.append_left⟩
        unfold intMin
        omega
  | high =>
      simp only [systemPriority] at h
      rw [Machine.run_bind_iff fun _ _ => rfl] at h
      obtain ⟨range, s₁, es₁, es₂, rfl, hrun₁, h⟩ := h
      obtain ⟨rfl, hrange⟩ := run_intResult hrun₁
      rw [Machine.run_bind_iff fun _ _ => rfl] at h
      obtain ⟨twice, s₁, es₃, es₄, rfl, hrun₂, h⟩ := h
      obtain ⟨rfl, htwice⟩ := run_intResult hrun₂
      obtain ⟨rfl, hsum⟩ := run_intResult h
      refine ⟨rfl, ?_⟩
      rcases hrange with ⟨-, rfl, rfl⟩ | ⟨hover, hes₁⟩
      · rcases htwice with ⟨⟨-, hfits⟩, rfl, rfl⟩ | ⟨hover, hes₃⟩
        · have hdiv : (2 * (cfg.maxPrio - cfg.minPrio)).tdiv 3 =
              2 * (cfg.maxPrio - cfg.minPrio) / 3 := Int.tdiv_eq_ediv_of_nonneg (by omega)
          rw [hdiv] at hsum
          rcases hsum with ⟨-, rfl, rfl⟩ | ⟨hout, -⟩
          · exact Or.inl ⟨hfits, rfl, rfl⟩
          · exact absurd ⟨by omega, by omega⟩ hout
        · refine Or.inr ⟨fun hfits => hover ⟨?_, hfits⟩, hes₃.append_left.append_right⟩
          unfold intMin
          omega
      · refine Or.inr ⟨fun hfits => hover ⟨?_, ?_⟩, hes₁.append_left⟩
        · unfold intMin
          omega
        · -- the width is an `int` if twice the width is
          have htwice : 2 * (cfg.maxPrio - cfg.minPrio) ≤ intMax := hfits
          omega

/-! ### The function -/

/-- What is done before the OS call. -/
def asked (cfg : SchedConfig) : List (schedSig H).Done :=
  [⟨.inl .schedGetPriorityMin, cfg.minPrio⟩, ⟨.inl .schedGetPriorityMax, cfg.maxPrio⟩]

/-- The OS call and what surrounds it: `h` is the word found at the handle, `p` what the `switch`
has come to. -/
def called (a : Addr) (level : TtThreadPriority) (handle : Option H) (h : H) (p : Int) (ok : Bool) :
    List (schedSig H).Done :=
  [⟨.inr (.inl (.readHandle a)), handle⟩, ⟨.inl (.readPointer handle), h⟩,
    ⟨.inl (.pthreadSetschedparam h p), ok⟩, ⟨.inr (.inl (.write a (.priority level))), ()⟩]

/-- The ways a `tt_thread_set_priority` of the record `r` at `a` can go. -/
inductive Outcome (cfg : SchedConfig) (a : Addr) (r : TtThread H) (priority : Int)
    (s : SchedState N H) : List (schedSig H).Done → TtError → SchedState N H → Prop
  | invalid (hpriority : TtThreadPriority.ofInt priority = none) :
      Outcome cfg a r priority s (asked cfg) .invalidParam s
  | set {level : TtThreadPriority} {es : List (schedSig H).Done} {h : H} {p : Int} {ok : Bool}
      {s₁ : SchedState N H} (hpriority : TtThreadPriority.ofInt priority = some level)
      (hmapped : Fits cfg level ∧ es = [] ∧ p = mapped cfg level ∨
        ¬ Fits cfg level ∧ Overflown es)
      (hcall : ok = false ∧ s₁ = s ∨ s.live h = true ∧ ok = true ∧ s₁ = s.setPriority h p) :
      Outcome cfg a r priority s (asked cfg ++ es ++ called a level r.handle h p ok) .success
        { s₁ with threads := s.threads.setMem a (some { r with priority := level }) }

theorem exec_readHandle {a : Addr} {r : TtThread H} (hr : s.threads.mem a = some r)
    (x : SchedChoice H) :
    (schedMachine cfg N H τ).exec x t (.inr (.inl (.readHandle a))) s = some (r.handle, s) := by
  show (readExec x.base a TtThread.handle s.threads).map _ = _
  unfold readExec
  rw [hr]
  rfl

theorem exec_write {a : Addr} {w : RecordWrite} (x : SchedChoice H) :
    (schedMachine cfg N H τ).exec x t (.inr (.inl (.write a w))) s =
      some ((), { s with threads := s.threads.setMem a ((s.threads.mem a).map (·.write w)) }) := by
  cases x <;> rfl

/-- Nothing else can happen in a `tt_thread_set_priority` of an allocated record. -/
theorem run_ttThreadSetPriority {a : Addr} {r : TtThread H} (hr : s.threads.mem a = some r)
    {priority : Int} {result : TtError}
    (h : (schedMachine cfg N H τ).Run t (ttThreadSetPriority (some a) priority) s es result s') :
    Outcome cfg a r priority s es result s' := by
  unfold ttThreadSetPriority ttPlatformThreadSetPriority at h
  replace h := (Machine.run_step_det (fun _ => rfl) fun _ => rfl).mp h
  obtain ⟨es₁, rfl, h⟩ := h
  replace h := (Machine.run_step_det (fun _ => rfl) fun _ => rfl).mp h
  obtain ⟨es₂, rfl, h⟩ := h
  cases hpriority : TtThreadPriority.ofInt priority with
  | none =>
      rw [hpriority] at h
      obtain ⟨rfl, rfl, rfl⟩ := Machine.run_ret_iff.mp h
      exact .invalid hpriority
  | some level =>
      rw [hpriority] at h
      replace h := (Machine.run_bind_iff fun _ _ => rfl).mp h
      obtain ⟨p, s₁, es₃, es₄, rfl, hswitch, h⟩ := h
      obtain ⟨rfl, hmapped⟩ := run_systemPriority hswitch
      replace h := (Machine.run_step_det (fun _ => rfl) (exec_readHandle hr)).mp h
      obtain ⟨es₅, rfl, h⟩ := h
      replace h := (Machine.run_step_iff fun _ => rfl).mp h
      obtain ⟨x, h', s₂, es₆, hword, rfl, h⟩ := h
      have hs₂ : s₂ = s₁ := by
        cases x <;> cases hword
        rfl
      subst hs₂
      replace h := (Machine.run_step_iff fun _ => rfl).mp h
      obtain ⟨y, ok, s₃, es₇, hcall, rfl, h⟩ := h
      change schedOpExec cfg y (.pthreadSetschedparam h' p) s₂ = some (ok, s₃) at hcall
      have hok := schedOpExec_pthreadSetschedparam hcall
      replace h := (Machine.run_step_det (fun _ => rfl) exec_write).mp h
      obtain ⟨es₈, rfl, h⟩ := h
      obtain ⟨rfl, rfl, rfl⟩ := Machine.run_ret_iff.mp h
      have hthreads : s₃.threads = s₂.threads := by
        rcases hok with ⟨-, rfl⟩ | ⟨-, -, rfl⟩ <;> rfl
      have hwrite : s₃.threads.setMem a ((s₃.threads.mem a).map (·.write (.priority level))) =
          s₂.threads.setMem a (some { r with priority := level }) := by
        rw [hthreads, hr]
        rfl
      rw [hwrite]
      exact .set hpriority hmapped hok

end ThreadMapping

end TinyTools
