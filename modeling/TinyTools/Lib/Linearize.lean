/-
Functions with one critical section are linearizable.

This is so whatever they do in the section.  In every reachable pool the log of the
sections completed so far, in the order in which the lock was acquired, linearizes the
trace.  What the functions compute is left to a proof about `Machine.Run`, where
nothing interferes.

The invariant says of each call how its program could have come to where it is: before
its section from any state, as it has changed nothing; in it from the state the log has
left; after it with the rest decided, as nothing it still does depends on the others.
-/
import TinyTools.Lib.Locked

namespace Interleave

variable {S : Sig} {τ χ σ κ α β : Type}

/-! ### The invariant -/

namespace Locking

variable {S' : Sys S τ χ σ κ α} {K : Locking S'.toMachine}

/-- What is known of a thread with rest `m` in call `id` of `c`, where `s` is the state the
completed sections `L` have left. -/
inductive ThreadOk (K : Locking S'.toMachine) (v : View S τ σ κ α) (L : List (LogEntry S τ κ α))
    (s : σ) (t : τ) (id : Nat) (c : κ) (m : Prog S α) : Prop
  /-- It could still be at this point if it started now. -/
  | before (hshape : K.Shape .before m) (hlock : K.holder v.shared ≠ some t)
      (hnew : ∀ e ∈ L, e.id ≠ id) (hfree : ∀ d ∈ prims v.trace id, K.kind d.1 = .free)
      (hsteps : ∀ s₁, K.stable s₁ → S'.Steps t (S'.body c) s₁ (prims v.trace id) m s₁)
  /-- It is as if it had run alone since the last section. -/
  | inside (hshape : K.Shape .inside m) (hlock : K.holder v.shared = some t)
      (hnew : ∀ e ∈ L, e.id ≠ id)
      (hsteps : S'.Steps t (S'.body c) s (prims v.trace id) m v.shared)
  /-- Its section is in the log, with the value it will come to. -/
  | after (hshape : K.Shape .after m) (hlock : K.holder v.shared ≠ some t) {es : List S.Done} {a : α}
      (hlog : ⟨id, t, c, prims v.trace id ++ es, a⟩ ∈ L)
      (hrest : ∀ s₁, K.stable s₁ → S'.Run t m s₁ es a s₁)

/-- The invariant, for the log `L` of completed sections and the state `s` they left. -/
structure Inv (K : Locking S'.toMachine) (s₀ : σ) (pl : Pool S τ σ κ α)
    (L : List (LogEntry S τ κ α)) (s : σ) : Prop where
  lin : Linearizes S' K s₀ pl.view.trace L s
  rest : K.stable s ∧ K.holder s = none
  stable : K.stable pl.view.shared
  unlocked : K.holder pl.view.shared = none → pl.view.shared = s
  locked : ∀ t, K.holder pl.view.shared = some t → ∃ id c, pl.view.calls t = some (id, c) ∧
    acquired K pl.view.trace = L.map LogEntry.id ++ [id]
  order : K.holder pl.view.shared = none → acquired K pl.view.trace = L.map LogEntry.id
  waiting : ∀ e ∈ L, pl.view.calls e.thread = some (e.id, e.call) ∨
    .ret e.id e.thread e.call e.val ∈ pl.view.trace
  thread : ∀ t id c m, pl.view.calls t = some (id, c) → pl.prog t = some m →
    ThreadOk K pl.view L s t id c m

/-- A step of another thread that leaves the lock to whom it belongs. -/
theorem ThreadOk.frame {v v' : View S τ σ κ α} {L L' : List (LogEntry S τ κ α)} {s s' : σ} {t : τ}
    {id : Nat} {c : κ} {m : Prog S α} (h : ThreadOk K v L s t id c m)
    (hprims : prims v'.trace id = prims v.trace id)
    (hlock : K.holder v'.shared = some t ↔ K.holder v.shared = some t)
    (hinside : K.holder v.shared = some t → v'.shared = v.shared ∧ s' = s)
    (hlog : ∀ e ∈ L, e ∈ L') (hnew : ∀ e ∈ L', e ∈ L ∨ e.id ≠ id) :
    ThreadOk K v' L' s' t id c m := by
  have hfresh : (∀ e ∈ L, e.id ≠ id) → ∀ e ∈ L', e.id ≠ id := by
    intro hL e he
    rcases hnew e he with heL | hne
    · exact hL e heL
    · exact hne
  cases h with
  | before hshape hout hid hfree hsteps =>
      refine .before hshape (fun hc => hout (hlock.mp hc)) (hfresh hid) ?_ ?_
      · rw [hprims]
        exact hfree
      · rw [hprims]
        exact hsteps
  | inside hshape hin hid hsteps =>
      obtain ⟨hshared, rfl⟩ := hinside hin
      refine .inside hshape (hlock.mpr hin) (hfresh hid) ?_
      rw [hprims, hshared]
      exact hsteps
  | @after hshape hout es a hmem hrest =>
      have hmem' : ⟨id, t, c, prims v'.trace id ++ es, a⟩ ∈ L' := by
        rw [hprims]
        exact hlog _ hmem
      exact .after hshape (fun hc => hout (hlock.mp hc)) hmem' hrest

/-! ### Steps -/

namespace Inv

variable {s₀ s : σ} {pl : Pool S τ σ κ α} {L : List (LogEntry S τ κ α)} {t : τ} {id : Nat} {c : κ}

theorem start (hstable : K.stable s₀) (hfree : K.holder s₀ = none) :
    Inv K s₀ (Sys.start s₀) [] s₀ := by
  refine ⟨⟨.nil, ?_, ?_, ?_, ?_⟩, ⟨hstable, hfree⟩, hstable, ?_, ?_, ?_, ?_, ?_⟩
  · exact List.nodup_nil
  · intro e he
    exact absurd he List.not_mem_nil
  · intro e he
    exact absurd he List.not_mem_nil
  · intro id t c a hret
    exact absurd hret List.not_mem_nil
  · intro _
    rfl
  · intro t ht
    have hnone : K.holder s₀ = some t := ht
    rw [hfree] at hnone
    cases hnone
  · intro _
    rfl
  · intro e he
    exact absurd he List.not_mem_nil
  · intro t id c m hc
    cases hc

variable [DecidableEq τ]

/-- A call starts outside the section. -/
theorem call (h : Inv K s₀ pl L s) (hb : Books pl.view) (hnone : pl.view.calls t = none)
    (hshape : K.Shape .before (S'.body c)) :
    Inv K s₀ ⟨pl.view.call t c, Function.update pl.prog t (some (S'.body c))⟩ L s := by
  have hout : K.holder pl.view.shared ≠ some t := by
    intro hheld
    obtain ⟨id, c', hc, -⟩ := h.locked t hheld
    rw [hnone] at hc
    cases hc
  refine ⟨h.lin.snoc_call hb t c, h.rest, h.stable, h.unlocked, ?_, ?_, ?_, ?_⟩
  · intro u hu
    obtain ⟨id, c', hc, hacq⟩ := h.locked u hu
    have hut : u ≠ t := by
      rintro rfl
      exact hout hu
    exact ⟨id, c', by simpa [hut] using hc, by simpa using hacq⟩
  · intro hfree
    simpa using h.order hfree
  · intro e he
    rcases h.waiting e he with hc | hret
    · have het : e.thread ≠ t := by
        intro het
        rw [het, hnone] at hc
        cases hc
      exact Or.inl (by simpa [het] using hc)
    · exact Or.inr (List.mem_append_left _ hret)
  · intro u id c' m hu hm
    by_cases hut : u = t
    · subst hut
      have hev : pl.view.next = id ∧ c = c' := by simpa using hu
      have hbody : S'.body c = m := by simpa using hm
      obtain ⟨rfl, rfl⟩ := hev
      subst hbody
      have hprims : prims (pl.view.call u c).trace pl.view.next = [] := by
        rw [View.call_trace, prims_snoc_call]
        exact hb.fresh _ (Nat.le_refl _)
      refine .before hshape hout ?_ ?_ ?_
      · intro e he hid
        have hlt := hb.called_below _ _ _ (h.lin.called e he)
        omega
      · rw [hprims]
        intro d hd
        exact absurd hd List.not_mem_nil
      · rw [hprims]
        exact fun s₁ _ => .refl
    · have hok := h.thread u id c' m (by simpa [hut] using hu) (by simpa [hut] using hm)
      exact hok.frame (prims_snoc_call _ _ _ _ _) Iff.rfl (fun _ => ⟨rfl, rfl⟩) (fun _ he => he)
        fun _ he => Or.inl he

/-- The other threads, when `t` performs a primitive. -/
theorem others (h : Inv K s₀ pl L s) (hb : Books pl.view) (hc : pl.view.calls t = some (id, c))
    {p : S.Op} {r : S.Res p} {s₁ s' : σ} {L' : List (LogEntry S τ κ α)} {m' : Prog S α}
    (hlock : ∀ u, u ≠ t → (K.holder s₁ = some u ↔ K.holder pl.view.shared = some u))
    (hinside : ∀ u, u ≠ t → K.holder pl.view.shared = some u → s₁ = pl.view.shared ∧ s' = s)
    (hlog : ∀ e ∈ L, e ∈ L') (hnew : ∀ e ∈ L', e ∈ L ∨ e.id = id)
    (ht : ThreadOk K (pl.view.prim id t p r s₁) L' s' t id c m') :
    ∀ u id' c' m, (pl.view.prim id t p r s₁).calls u = some (id', c') →
      Function.update pl.prog t (some m') u = some m →
      ThreadOk K (pl.view.prim id t p r s₁) L' s' u id' c' m := by
  intro u id' c' m hu hm
  by_cases hut : u = t
  · subst hut
    have hev : id = id' ∧ c = c' := by simpa [hc] using hu
    have hm' : m' = m := by simpa using hm
    obtain ⟨rfl, rfl⟩ := hev
    subst hm'
    exact ht
  · have hid : id ≠ id' := by
      rintro rfl
      exact hut (hb.apart u t id c' c hu hc)
    have hok := h.thread u id' c' m hu (by simpa [hut] using hm)
    refine hok.frame (prims_snoc_of_ne _ hid _ _ _) (hlock u hut) (hinside u hut) hlog ?_
    intro e he
    rcases hnew e he with heL | heid
    · exact Or.inl heL
    · exact Or.inr (heid ▸ hid)

/-- A free primitive leaves the state as it is. -/
theorem prim_free (h : Inv K s₀ pl L s) (hb : Books pl.view) (hc : pl.view.calls t = some (id, c))
    {p : S.Op} {r : S.Res p} {m' : Prog S α} (hp : K.kind p = .free)
    (ht : ThreadOk K (pl.view.prim id t p r pl.view.shared) L s t id c m') :
    Inv K s₀ ⟨pl.view.prim id t p r pl.view.shared, Function.update pl.prog t (some m')⟩ L s := by
  have hacq : acquired K (pl.view.trace ++ [.prim id t p r]) = acquired K pl.view.trace := by
    rw [acquired_prim, if_neg (by rw [hp]; decide), List.append_nil]
  refine ⟨h.lin.snoc_prim hb hc p r, h.rest, h.stable, h.unlocked, ?_, ?_, ?_, ?_⟩
  · intro u hu
    obtain ⟨id', c', hu', hord⟩ := h.locked u hu
    exact ⟨id', c', hu', hacq.trans hord⟩
  · intro hfree
    exact hacq.trans (h.order hfree)
  · intro e he
    rcases h.waiting e he with hcall | hret
    · exact Or.inl hcall
    · exact Or.inr (List.mem_append_left _ hret)
  · exact h.others hb hc (fun _ _ => Iff.rfl) (fun _ _ _ => ⟨rfl, rfl⟩) (fun _ he => he)
      (fun _ he => Or.inl he) ht

/-- While a thread has the lock, its section is the next to join the log. -/
theorem prim_holding (h : Inv K s₀ pl L s) (hb : Books pl.view)
    (hc : pl.view.calls t = some (id, c)) {p : S.Op} {r : S.Res p} {s₁ : σ} {m' : Prog S α}
    (hold : ∀ u, u ≠ t → K.holder pl.view.shared ≠ some u) (hnow : K.holder s₁ = some t)
    (hstable : K.stable s₁)
    (hacq : acquired K (pl.view.trace ++ [.prim id t p r]) = L.map LogEntry.id ++ [id])
    (ht : ThreadOk K (pl.view.prim id t p r s₁) L s t id c m') :
    Inv K s₀ ⟨pl.view.prim id t p r s₁, Function.update pl.prog t (some m')⟩ L s := by
  have hheld : K.holder s₁ ≠ none := by
    rw [hnow]
    exact Option.some_ne_none t
  refine ⟨h.lin.snoc_prim hb hc p r, h.rest, hstable, ?_, ?_, ?_, ?_, ?_⟩
  · intro hfree
    exact absurd hfree hheld
  · intro u hu
    have hut : K.holder s₁ = some u := hu
    rw [hnow] at hut
    cases hut
    exact ⟨id, c, hc, hacq⟩
  · intro hfree
    exact absurd hfree hheld
  · intro e he
    rcases h.waiting e he with hcall | hret
    · exact Or.inl hcall
    · exact Or.inr (List.mem_append_left _ hret)
  · refine h.others hb hc ?_ ?_ (fun _ he => he) (fun _ he => Or.inl he) ht
    · intro u hut
      rw [hnow]
      exact iff_of_false (fun heq => hut (Option.some.inj heq).symm) (hold u hut)
    · intro u hut hu
      exact absurd hu (hold u hut)

/-- The thread that takes the lock finds the state the last section left. -/
theorem prim_acquire (h : Inv K s₀ pl L s) (hb : Books pl.view)
    (hc : pl.view.calls t = some (id, c)) {p : S.Op} {r : S.Res p} {s₁ : σ} {m' : Prog S α}
    (hp : K.kind p = .acquire) (hold : K.holder pl.view.shared = none)
    (hnow : K.holder s₁ = some t) (hstable : K.stable s₁)
    (ht : ThreadOk K (pl.view.prim id t p r s₁) L s t id c m') :
    Inv K s₀ ⟨pl.view.prim id t p r s₁, Function.update pl.prog t (some m')⟩ L s := by
  refine h.prim_holding hb hc ?_ hnow hstable ?_ ht
  · intro u _ hu
    rw [hold] at hu
    cases hu
  · rw [acquired_prim, if_pos hp, h.order hold]

/-- Inside its section a thread is alone. -/
theorem prim_inside (h : Inv K s₀ pl L s) (hb : Books pl.view)
    (hc : pl.view.calls t = some (id, c)) {p : S.Op} {r : S.Res p} {s₁ : σ} {m' : Prog S α}
    (hp : K.kind p = .inside) (hold : K.holder pl.view.shared = some t)
    (hnow : K.holder s₁ = some t) (hstable : K.stable s₁)
    (ht : ThreadOk K (pl.view.prim id t p r s₁) L s t id c m') :
    Inv K s₀ ⟨pl.view.prim id t p r s₁, Function.update pl.prog t (some m')⟩ L s := by
  refine h.prim_holding hb hc ?_ hnow hstable ?_ ht
  · intro u hut hu
    rw [hold] at hu
    exact hut (Option.some.inj hu).symm
  · obtain ⟨id', c', hu', hord⟩ := h.locked t hold
    rw [hc] at hu'
    cases hu'
    rw [acquired_prim, if_neg (by rw [hp]; decide), List.append_nil]
    exact hord

/-- Releasing the lock completes the section, which joins the log. -/
theorem prim_release (h : Inv K s₀ pl L s) (hb : Books pl.view) (hc : pl.view.calls t = some (id, c))
    {p : S.Op} {r : S.Res p} {s₁ : σ} {m' : Prog S α} (hp : K.kind p = .release)
    (hold : K.holder pl.view.shared = some t) (hnow : K.holder s₁ = none) (hstable : K.stable s₁)
    (hnew : ∀ e ∈ L, e.id ≠ id) (hshape : K.Shape .after m')
    (hsteps : S'.Steps t (S'.body c) s (prims pl.view.trace id ++ [⟨p, r⟩]) m' s₁) :
    ∃ L', Inv K s₀ ⟨pl.view.prim id t p r s₁, Function.update pl.prog t (some m')⟩ L' s₁ := by
  obtain ⟨es, a, hrest⟩ := run_of_after (t := t) hshape
  have hrun := hsteps.run (hrest s₁ hstable)
  have hprims : prims (pl.view.prim id t p r s₁).trace id
      = prims pl.view.trace id ++ [⟨p, r⟩] := prims_snoc_self _ _ _ _ _
  have hacq : acquired K (pl.view.trace ++ [.prim id t p r]) = L.map LogEntry.id ++ [id] := by
    rw [acquired_prim, if_neg (by rw [hp]; decide), List.append_nil]
    obtain ⟨id', c', hu', hord⟩ := h.locked t hold
    rw [hc] at hu'
    cases hu'
    exact hord
  refine ⟨L ++ [⟨id, t, c, prims pl.view.trace id ++ [⟨p, r⟩] ++ es, a⟩], ?_⟩
  refine ⟨(h.lin.snoc_prim hb hc p r).append (hb.prim hc r s₁) hc hnew hrun, ⟨hstable, hnow⟩,
    hstable, ?_, ?_, ?_, ?_, ?_⟩
  · intro _
    rfl
  · intro u hu
    have hut : K.holder s₁ = some u := hu
    rw [hnow] at hut
    cases hut
  · intro _
    rw [View.prim_trace, hacq, List.map_append]
    rfl
  · intro e he
    rcases List.mem_append.mp he with heL | hlast
    · rcases h.waiting e heL with hcall | hret
      · exact Or.inl hcall
      · exact Or.inr (List.mem_append_left _ hret)
    · rw [List.mem_singleton.mp hlast]
      exact Or.inl hc
  · refine h.others hb hc ?_ ?_ (fun _ he => List.mem_append_left _ he) ?_ ?_
    · intro u hut
      rw [hnow, hold]
      simp [Ne.symm hut]
    · intro u hut hu
      rw [hold] at hu
      cases hu
      exact absurd rfl hut
    · intro e he
      rcases List.mem_append.mp he with heL | hlast
      · exact Or.inl heL
      · rw [List.mem_singleton.mp hlast]
        exact Or.inr rfl
    · have hlog : ⟨id, t, c, prims (pl.view.prim id t p r s₁).trace id ++ es, a⟩ ∈
          L ++ [⟨id, t, c, prims pl.view.trace id ++ [⟨p, r⟩] ++ es, a⟩] := by
        rw [hprims]
        exact List.mem_append_right _ (List.mem_singleton.mpr rfl)
      refine .after hshape ?_ hlog hrest
      show K.holder s₁ ≠ some t
      rw [hnow]
      exact fun hc => nomatch hc

/-- A call returns outside the section. -/
theorem ret (h : Inv K s₀ pl L s) (hc : pl.view.calls t = some (id, c)) {a : α}
    (hp : pl.prog t = some (.ret a)) :
    Inv K s₀ ⟨pl.view.ret id t c a, Function.update pl.prog t none⟩ L s := by
  have hret : K.holder pl.view.shared ≠ some t ∧
      (⟨id, t, c, prims pl.view.trace id, a⟩ ∈ L ∨ (∀ e ∈ L, e.id ≠ id) ∧
      (∀ d ∈ prims pl.view.trace id, K.kind d.1 = .free) ∧
        ∀ s, K.stable s → S'.Run t (S'.body c) s (prims pl.view.trace id) a s) := by
    cases h.thread t id c _ hc hp with
    | before _ hout hnew hfree hsteps =>
        refine ⟨hout, Or.inr ⟨hnew, hfree, ?_⟩⟩
        intro s₁ hs₁
        simpa using (hsteps s₁ hs₁).run (.ret a s₁)
    | inside hshape => exact absurd rfl hshape
    | after _ hout hlog hrest =>
        obtain ⟨rfl, rfl, -⟩ := Machine.run_ret_iff.mp (hrest s h.rest.1)
        exact ⟨hout, Or.inl (by simpa using hlog)⟩
  obtain ⟨hout, hret⟩ := hret
  refine ⟨h.lin.snoc_ret (hret.imp_right And.right), h.rest, h.stable, h.unlocked, ?_, ?_, ?_, ?_⟩
  · intro u hu
    obtain ⟨id', c', hu', hord⟩ := h.locked u hu
    have hut : u ≠ t := by
      rintro rfl
      exact hout hu
    exact ⟨id', c', by simpa [hut] using hu', by simpa using hord⟩
  · intro hfree
    simpa using h.order hfree
  · intro e he
    rcases h.waiting e he with hcall | hold
    · by_cases het : e.thread = t
      · -- the call that returns is the one in the log
        rw [het, hc] at hcall
        have hid : id = e.id ∧ c = e.call := by simpa using hcall
        right
        rcases hret with hmem | ⟨hnew, -⟩
        · have heq : (⟨id, t, c, prims pl.view.trace id, a⟩ : LogEntry S τ κ α) = e :=
            List.inj_on_of_nodup_map h.lin.nodup hmem he hid.1
          rw [← heq]
          simp
        · exact absurd hid.1.symm (hnew e he)
      · exact Or.inl (by simpa [het] using hcall)
    · exact Or.inr (List.mem_append_left _ hold)
  · intro u id' c' m hu hm
    by_cases hut : u = t
    · subst hut
      simp at hu
    · have hok := h.thread u id' c' m (by simpa [hut] using hu) (by simpa [hut] using hm)
      exact hok.frame (prims_snoc_ret _ _ _ _ _ _) Iff.rfl (fun _ => ⟨rfl, rfl⟩) (fun _ he => he)
        fun _ he => Or.inl he

end Inv

/-! ### Runs -/

variable [DecidableEq τ]

/-- One primitive of a thread, wherever the thread stands. -/
theorem Inv.prim {s₀ s : σ} {pl : Pool S τ σ κ α} {L : List (LogEntry S τ κ α)} {t : τ} {id : Nat}
    {c : κ} (h : Inv K s₀ pl L s) (hb : Books pl.view) (hc : pl.view.calls t = some (id, c))
    {p : S.Op} {k : S.Res p → Prog S α} (hp : pl.prog t = some (.step p k)) {x : χ} {r : S.Res p}
    {s₁ : σ} (hexec : S'.exec x t p pl.view.shared = some (r, s₁)) :
    S'.again p r = false ∧ ∃ L' s',
      Inv K s₀ ⟨pl.view.prim id t p r s₁, Function.update pl.prog t (some (k r))⟩ L' s' := by
  have hprims : prims (pl.view.prim id t p r s₁).trace id
      = prims pl.view.trace id ++ [⟨p, r⟩] := prims_snoc_self _ _ _ _ _
  cases h.thread t id c _ hc hp with
  | before hshape hout hnew hfree hsteps =>
      obtain ⟨ph, hnext, hk⟩ := hshape
      rcases Phase.next_before hnext with ⟨hp', rfl⟩ | ⟨hp', rfl⟩
      · obtain ⟨r₀, -, huniq, hall⟩ := K.free (t := t) hp'
        have hnever : K.kind p ≠ .never := by
          rw [hp']
          decide
        obtain ⟨hans, -, hagain⟩ := K.sound hnever h.stable hexec
        have hsame : s₁ = pl.view.shared := (hall _ h.stable).2 x r s₁ hexec
        subst hsame
        refine ⟨hagain, L, s, h.prim_free hb hc hp' (.before (hk r hans) hout hnew ?_ ?_)⟩
        · rw [hprims]
          intro d hd
          rcases List.mem_append.mp hd with hd | hd
          · exact hfree d hd
          · rw [List.mem_singleton.mp hd]
            exact hp'
        · rw [hprims]
          intro s₂ hs₂
          obtain ⟨x₂, hx₂⟩ := (hall s₂ hs₂).1
          rw [← huniq r hans] at hx₂
          exact (hsteps s₂ hs₂).snoc hx₂ hagain
      · have hnever : K.kind p ≠ .never := by
          rw [hp']
          decide
        obtain ⟨hans, hstable, hagain⟩ := K.sound hnever h.stable hexec
        obtain ⟨hold, hnow⟩ := K.acquire hp' hexec
        have hs : pl.view.shared = s := h.unlocked hold
        refine ⟨hagain, L, s, h.prim_acquire hb hc hp' hold hnow hstable
          (.inside (hk r hans) hnow hnew ?_)⟩
        rw [hprims]
        rw [hs] at hexec
        exact (hsteps s h.rest.1).snoc hexec hagain
  | inside hshape hin hnew hsteps =>
      obtain ⟨ph, hnext, hk⟩ := hshape
      have hkind := Phase.next_inside hnext
      have hnever : K.kind p ≠ .never := by
        rcases hkind with ⟨hp', -⟩ | ⟨hp', -⟩
        · rw [hp']
          decide
        · rw [hp']
          decide
      obtain ⟨hans, hstable, hagain⟩ := K.sound hnever h.stable hexec
      rcases hkind with ⟨hp', rfl⟩ | ⟨hp', rfl⟩
      · have hnow : K.holder s₁ = some t := (K.inside hp' hexec).trans hin
        refine ⟨hagain, L, s, h.prim_inside hb hc hp' hin hnow hstable
          (.inside (hk r hans) hnow hnew ?_)⟩
        rw [hprims]
        exact hsteps.snoc hexec hagain
      · have hnow : K.holder s₁ = none := K.release hp' hexec hin
        obtain ⟨L', hL'⟩ := h.prim_release hb hc hp' hin hnow hstable hnew (hk r hans)
          (hsteps.snoc hexec hagain)
        exact ⟨hagain, L', s₁, hL'⟩
  | @after hshape hout es a hlog hrest =>
      obtain ⟨ph, hnext, hk⟩ := hshape
      obtain ⟨hp', rfl⟩ := Phase.next_after hnext
      obtain ⟨r₀, -, huniq, hall⟩ := K.free (t := t) hp'
      have hnever : K.kind p ≠ .never := by
        rw [hp']
        decide
      obtain ⟨hans, -, hagain⟩ := K.sound hnever h.stable hexec
      have hsame : s₁ = pl.view.shared := (hall _ h.stable).2 x r s₁ hexec
      subst hsame
      -- the answer is the one the log foresaw
      obtain ⟨r₁, es', hans₁, rfl, -⟩ := run_step_free hp' h.rest.1 (hrest s h.rest.1)
      have hr : r = r₁ := (huniq r hans).trans (huniq r₁ hans₁).symm
      subst hr
      have hrest' : ∀ s₂, K.stable s₂ → S'.Run t (k r) s₂ es' a s₂ := by
        intro s₂ hs₂
        obtain ⟨r₂, es₂, -, hes, hrun⟩ := run_step_free hp' hs₂ (hrest s₂ hs₂)
        cases hes
        exact hrun
      have hlog' :
          ⟨id, t, c, prims (pl.view.prim id t p r pl.view.shared).trace id ++ es', a⟩ ∈ L := by
        rw [hprims, List.append_assoc]
        exact hlog
      exact ⟨hagain, L, s, h.prim_free hb hc hp' (.after (hk r hans) hout hlog' hrest')⟩

/-- The invariant holds in every reachable pool. -/
theorem inv_of_reach {ok : View S τ σ κ α → τ → κ → Prop} {s₀ : σ}
    (hstable : K.stable s₀) (hfree : K.holder s₀ = none)
    (hshape : ∀ v t c, ok v t c → K.Shape .before (S'.body c)) {pl : Pool S τ σ κ α}
    (h : S'.Reach ok s₀ pl) : ∃ L s, Inv K s₀ pl L s := by
  induction h with
  | start => exact ⟨[], s₀, .start hstable hfree⟩
  | @step pl pl' hreach l hok hstep ih =>
      obtain ⟨L, s, hinv⟩ := ih
      have hb : Books pl.view := hreach.books
      cases l with
      | call t c =>
          obtain ⟨hnone, rfl⟩ := Sys.step_call hstep
          exact ⟨L, s, hinv.call hb hnone (hshape _ _ _ hok)⟩
      | prim t x =>
          obtain ⟨id, c, p, k, r, s₁, hc, hp, hexec, rfl⟩ := Sys.step_prim hstep
          obtain ⟨hagain, L', s', hinv'⟩ := hinv.prim hb hc hp hexec
          refine ⟨L', s', ?_⟩
          simpa [hagain] using hinv'
      | ret t =>
          obtain ⟨id, c, a, hc, hp, rfl⟩ := Sys.step_ret hstep
          exact ⟨L, s, hinv.ret hc hp⟩

/--
**Functions with one critical section are linearizable.** In every reachable pool
the sections completed so far, in the order in which the lock was acquired, are a
sequential execution of the same functions.  When the lock is free the state is the
one this execution ends in, and when no call is in progress every call of the log
has returned.
-/
theorem linearizable {ok : View S τ σ κ α → τ → κ → Prop} {s₀ : σ}
    (hstable : K.stable s₀) (hfree : K.holder s₀ = none)
    (hshape : ∀ v t c, ok v t c → K.Shape .before (S'.body c)) {pl : Pool S τ σ κ α}
    (h : S'.Reach ok s₀ pl) :
    ∃ L s, Linearizes S' K s₀ pl.view.trace L s ∧
      L.map LogEntry.id <+: acquired K pl.view.trace ∧
      (K.holder pl.view.shared = none →
        pl.view.shared = s ∧ acquired K pl.view.trace = L.map LogEntry.id) ∧
      ∀ e ∈ L, pl.view.calls e.thread = none →
        .ret e.id e.thread e.call e.val ∈ pl.view.trace := by
  obtain ⟨L, s, hinv⟩ := inv_of_reach hstable hfree hshape h
  refine ⟨L, s, hinv.lin, ?_, ?_, ?_⟩
  · rcases hlock : K.holder pl.view.shared with _ | t
    · exact ⟨[], (List.append_nil _).trans (hinv.order hlock).symm⟩
    · obtain ⟨id, c, -, hacq⟩ := hinv.locked t hlock
      exact ⟨[id], hacq.symm⟩
  · intro hlock
    exact ⟨hinv.unlocked hlock, hinv.order hlock⟩
  · intro e he hnone
    rcases hinv.waiting e he with hcall | hret
    · rw [hnone] at hcall
      cases hcall
    · exact hret

/-- **A primitive that needs the lock is only performed by its holder.** -/
theorem holder_of_inside {ok : View S τ σ κ α → τ → κ → Prop} {s₀ : σ}
    (hstable : K.stable s₀) (hfree : K.holder s₀ = none)
    (hshape : ∀ v t c, ok v t c → K.Shape .before (S'.body c)) {pl : Pool S τ σ κ α}
    (h : S'.Reach ok s₀ pl) {t : τ} {p : S.Op} {k : S.Res p → Prog S α}
    (hc : pl.view.calls t ≠ none) (hp : pl.prog t = some (.step p k))
    (hkind : K.kind p = .inside ∨ K.kind p = .release) : K.holder pl.view.shared = some t := by
  obtain ⟨L, s, hinv⟩ := inv_of_reach hstable hfree hshape h
  obtain ⟨⟨id, c⟩, hc⟩ := Option.ne_none_iff_exists'.mp hc
  cases hinv.thread t id c _ hc hp with
  | before hsh =>
      obtain ⟨ph, hnext, -⟩ := hsh
      rcases hkind with hk | hk
      · rw [hk] at hnext
        cases hnext
      · rw [hk] at hnext
        cases hnext
  | inside _ hin => exact hin
  | after hsh =>
      obtain ⟨ph, hnext, -⟩ := hsh
      rcases hkind with hk | hk
      · rw [hk] at hnext
        cases hnext
      · rw [hk] at hnext
        cases hnext

end Locking

end Interleave
