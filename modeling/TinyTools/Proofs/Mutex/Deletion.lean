/-
Deleting the queries from a run.

Step by step, a run is followed by one without queries.  A query is seen in that run
at no point: while it holds the mutex, the mutex is free there.  A lock that waits for
the query takes its step only when the query has given the mutex back, so both runs
take it then; only a trylock would see a difference.
-/
import TinyTools.Proofs.Mutex.Answers

namespace TinyTools

open Interleave

namespace MutexQuery

variable {τ : Type} [DecidableEq τ] {a : Addr} {v : QueryView τ} {G : τ → Ghost} {t : τ} {id : Nat}
  {c : MutexCall Unit} {s₀ : LinuxMutexes Unit τ} {pl pl' : QueryPool τ}

/-- The calls and returns of a run, without those of queries. -/
def history (tr : List (QueryEvent τ)) : List (τ × MutexCall Unit × Option TtVal) :=
  tr.filterMap fun
    | .call _ t c => if isQuery c then none else some (t, c, none)
    | .ret _ t c a => if isQuery c then none else some (t, c, some a)
    | .prim _ _ _ _ => none

/-- A run of the same calls, with the same results, and without queries. -/
def Deletable (s : LinuxMutexes Unit τ) (tr : List (QueryEvent τ)) : Prop :=
  ∃ pl : QueryPool τ, (steadySys τ).Reach Client s pl ∧
    (∀ id t c, .call id t c ∈ pl.view.trace → isQuery c = false) ∧
    history pl.view.trace = history tr

omit [DecidableEq τ] in
theorem queried_iff (hb : Books v) (ho : owner v.trace = some (id, t))
    (hc : .call id t c ∈ v.trace) : Queried v.trace ↔ isQuery c = true := by
  refine ⟨?_, fun hq => ⟨id, t, c, ho, hc, hq⟩⟩
  rintro ⟨id', t', c', ho', hc', hq⟩
  rw [ho] at ho'
  cases ho'
  rw [(hb.once id t t c c' hc hc').2]
  exact hq

omit [DecidableEq τ] in
theorem not_queried {tr : List (QueryEvent τ)} (ho : owner tr = none) : ¬ Queried tr := by
  rintro ⟨_, _, _, ho', -⟩
  rw [ho] at ho'
  cases ho'

omit [DecidableEq τ] in
/-- A new call is not the owner. -/
theorem Inv.owner_ne_next (h : Inv a v G) (hb : Books v) : owner v.trace ≠ some (v.next, t) := by
  intro ho
  obtain ⟨c', hc'⟩ := h.taker _ _ ho
  exact absurd (hb.called_below _ _ _ hc') (by omega)

theorem Inv.queried_call (h : Inv a v G) (hb : Books v) :
    Queried (v.call t c).trace ↔ Queried v.trace := by
  refine ⟨?_, ?_⟩
  · rintro ⟨id, u, c', ho, hc', hq⟩
    rw [View.call_trace, owner_snoc] at ho
    rcases List.mem_append.mp hc' with hold | hnew
    · exact ⟨id, u, c', ho, hold, hq⟩
    · cases List.mem_singleton.mp hnew
      exact absurd ho (h.owner_ne_next hb)
  · rintro ⟨id, u, c', ho, hc', hq⟩
    exact ⟨id, u, c', by simpa using ho, List.mem_append_left _ hc', hq⟩

/-- The state without the queries: a mutex in the hands of one is free. -/
structure Unqueried (a : Addr) (tr : List (QueryEvent τ)) (s s' : LinuxMutexes Unit τ) : Prop where
  queried : Queried tr → s' = s.setObject a (some (.ready none))
  same : ¬ Queried tr → s' = s

/-- What a thread is doing without its queries. -/
def Mirrors (call call' : Option (Nat × MutexCall Unit))
    (prog prog' : Option (Prog (linuxMutexSig Unit) TtVal)) : Prop :=
  match call with
  | none => call' = none
  | some (_, c) =>
      if isQuery c then call' = none else ∃ id', call' = some (id', c) ∧ prog' = prog

/-- `pl'` is `pl` without its queries. -/
structure Follows (a : Addr) (s₀ : LinuxMutexes Unit τ) (pl pl' : QueryPool τ) : Prop where
  reach : (steadySys τ).Reach Client s₀ pl'
  plain : ∀ id t c, .call id t c ∈ pl'.view.trace → isQuery c = false
  past : history pl'.view.trace = history pl.view.trace
  state : Unqueried a pl.view.trace pl.view.shared pl'.view.shared
  thread : ∀ t, Mirrors (pl.view.calls t) (pl'.view.calls t) (pl.prog t) (pl'.prog t)

theorem Mirrors.update {call call' : τ → Option (Nat × MutexCall Unit)}
    {prog prog' : τ → Option (Prog (linuxMutexSig Unit) TtVal)} {x x' y y'}
    (h : ∀ u, Mirrors (call u) (call' u) (prog u) (prog' u)) (hx : Mirrors x x' y y') (u : τ) :
    Mirrors (Function.update call t x u) (Function.update call' t x' u)
      (Function.update prog t y u) (Function.update prog' t y' u) := by
  by_cases hu : u = t
  · simpa [hu] using hx
  · simpa [hu] using h u

omit [DecidableEq τ] in
theorem Unqueried.congr {tr tr' : List (QueryEvent τ)} {s s' : LinuxMutexes Unit τ}
    (h : Unqueried a tr s s') (hqueried : Queried tr' ↔ Queried tr) : Unqueried a tr' s s' := by
  refine ⟨fun hqu => h.queried (hqueried.mp hqu), fun hqu => h.same ?_⟩
  intro hqu'
  exact hqu (hqueried.mpr hqu')

/-- A client that keeps its promise does so without the queries. -/
theorem Follows.client (h : Follows a s₀ pl pl') (hinv : Inv a pl.view G) (hidle : G t = .idle)
    (hok : Client pl.view t c) : Client pl'.view t c := by
  by_cases hqu : Queried pl.view.trace
  · -- a thread outside any call is not the one that queries
    obtain ⟨id, u, c', ho, hc', hq'⟩ := hqu
    have hu : u ≠ t := by
      intro heq
      subst heq
      have hg := hinv.query id u c' ho hc' hq'
      rw [hidle] at hg
      cases hg
    unfold Client at hok ⊢
    split at hok
    · trivial
    · trivial
    · trivial
    · rw [hinv.holder_eq, ho] at hok
      exact absurd (Option.some.inj hok) hu
    · exact hok
  · unfold Client at hok ⊢
    rw [h.state.same hqu]
    exact hok

/-- A call is made. -/
theorem Follows.call (h : Follows a s₀ pl pl') (hinv : Inv a pl.view G) (hidle : G t = .idle)
    (hb : Books pl.view) (hnone : pl.view.calls t = none) (hok : Client pl.view t c)
    {pl₁ : QueryPool τ}
    (hpl₁ : pl₁ = ⟨pl.view.call t c, Function.update pl.prog t (some ((steadySys τ).body c))⟩) :
    ∃ pl₁', Follows a s₀ pl₁ pl₁' := by
  subst hpl₁
  have hnone' : pl'.view.calls t = none := by
    have ht := h.thread t
    unfold Mirrors at ht
    rw [hnone] at ht
    exact ht
  cases hq : isQuery c with
  | true =>
      refine ⟨pl', h.reach, h.plain, ?_, ?_, ?_⟩
      · rw [h.past, View.call_trace]
        simp [history, hq]
      · exact h.state.congr (hinv.queried_call hb)
      · intro u
        by_cases hu : u = t
        · subst hu
          simp [Mirrors, hq, hnone']
        · simpa [hu] using h.thread u
  | false =>
      refine ⟨⟨pl'.view.call t c, Function.update pl'.prog t (some ((steadySys τ).body c))⟩,
        h.reach.step (.call t c) (h.client hinv hidle hok) ?_, ?_, ?_, ?_, ?_⟩
      · simp [Sys.step, hnone']
      · intro id' u c' hc'
        rcases List.mem_append.mp hc' with hold | hnew
        · exact h.plain id' u c' hold
        · cases List.mem_singleton.mp hnew
          exact hq
      · have hpast := h.past
        simp only [history] at hpast
        simp [history, hq, hpast]
      · exact h.state.congr (hinv.queried_call hb)
      · exact Mirrors.update h.thread (by simp [Mirrors, hq])

/-- A call returns. -/
theorem Follows.ret (h : Follows a s₀ pl pl') (hc : pl.view.calls t = some (id, c)) {x : TtVal}
    (hp : pl.prog t = some (.ret x)) {pl₁ : QueryPool τ}
    (hpl₁ : pl₁ = ⟨pl.view.ret id t c x, Function.update pl.prog t none⟩) :
    ∃ pl₁', Follows a s₀ pl₁ pl₁' := by
  subst hpl₁
  have hstate : Unqueried a (pl.view.ret id t c x).trace pl.view.shared pl'.view.shared :=
    h.state.congr (by simp [Queried])
  have ht := h.thread t
  unfold Mirrors at ht
  rw [hc] at ht
  cases hq : isQuery c with
  | true =>
      simp only [hq, if_true] at ht
      refine ⟨pl', h.reach, h.plain, ?_, hstate, ?_⟩
      · rw [h.past, View.ret_trace]
        simp [history, hq]
      · intro u
        by_cases hu : u = t
        · subst hu
          simp [Mirrors, ht]
        · simpa [hu] using h.thread u
  | false =>
      simp only [hq, Bool.false_eq_true, if_false] at ht
      obtain ⟨id', hc', hp'⟩ := ht
      rw [hp] at hp'
      refine ⟨⟨pl'.view.ret id' t c x, Function.update pl'.prog t none⟩,
        h.reach.step (.ret t) trivial ?_, ?_, ?_, hstate, ?_⟩
      · simp [Sys.step, hc', hp']
      · intro id'' u c' hcall
        exact h.plain id'' u c' (by simpa using hcall)
      · have hpast := h.past
        simp only [history] at hpast
        simp [history, hq, hpast]
      · exact Mirrors.update h.thread rfl

omit [DecidableEq τ] in
/-- What a step does: nothing to the mutex, take it, or give it back. -/
theorem Inv.exec_cases (h : Inv a v G) {p : LinuxMutexOp Unit} {r : p.Res}
    {s : LinuxMutexes Unit τ} (hinner : Inner a v t p)
    (hexec : linuxMutexExec .ok t p v.shared = some (r, s)) (id : Nat) :
    (s = v.shared ∧ owner (v.trace ++ [.prim id t p r]) = owner v.trace ∧
      ∀ s', s'.mutex = v.shared.mutex → (p = .pthreadMutexTrylock (some a) → s' = v.shared) →
        linuxMutexExec .ok t p s' = some (r, s')) ∨
    (s = v.shared.setObject a (some (.ready (some t))) ∧ owner v.trace = none ∧
      owner (v.trace ++ [.prim id t p r]) = some (id, t)) ∨
    (p = .pthreadMutexUnlock (some a) ∧ s = v.shared.setObject a (some (.ready none)) ∧
      owner (v.trace ++ [.prim id t p r]) = none ∧
      ∀ s' n, s'.object a = some (.ready n) →
        linuxMutexExec .ok t p s' = some (r, s'.setObject a (some (.ready none)))) := by
  rcases hinner with rfl | rfl | rfl | rfl | ⟨rfl, -⟩
  · cases hexec
    refine Or.inl ⟨rfl, by simp, fun s' hs' _ => ?_⟩
    simp [linuxMutexExec, hs']
  · cases hexec
    refine Or.inl ⟨rfl, by simp, fun s' hs' _ => ?_⟩
    simp [linuxMutexExec, hs']
  · obtain ⟨hfree, rfl, rfl⟩ := steady_lock h.ready hexec
    exact Or.inr (Or.inl ⟨rfl, Option.map_eq_none_iff.mp hfree, by simp⟩)
  · rcases steady_trylock h.ready hexec with ⟨hfree, rfl, rfl⟩ | ⟨hheld, rfl, rfl⟩
    · exact Or.inr (Or.inl ⟨rfl, Option.map_eq_none_iff.mp hfree, by simp⟩)
    · refine Or.inl ⟨rfl, by simp, fun s' _ hs' => ?_⟩
      rw [hs' rfl]
      exact hexec
  · obtain ⟨rfl, rfl⟩ := steady_unlock (t := t) h.ready hexec
    refine Or.inr (Or.inr ⟨rfl, rfl, by simp, fun s' n hs' => ?_⟩)
    simp [linuxMutexExec, hs']

omit [DecidableEq τ] in
theorem queried_prim {p : LinuxMutexOp Unit} {r : p.Res} {s : LinuxMutexes Unit τ}
    (howner : owner (v.trace ++ [.prim id t p r]) = owner v.trace) :
    Queried (v.prim id t p r s).trace ↔ Queried v.trace := by
  unfold Queried
  rw [View.prim_trace, howner]
  simp

omit [DecidableEq τ] in
/-- A step of a query shows outside of it only that the mutex is in its hands. -/
theorem Unqueried.stay (h : Inv a v G) (hb : Books v) (hc : v.calls t = some (id, c))
    (hq : isQuery c = true) {p : LinuxMutexOp Unit} {r : p.Res} {s s' : LinuxMutexes Unit τ}
    (hinner : Inner a v t p) (hexec : linuxMutexExec .ok t p v.shared = some (r, s))
    (hs : Unqueried a v.trace v.shared s') : Unqueried a (v.prim id t p r s).trace s s' := by
  rcases h.exec_cases hinner hexec id with ⟨rfl, howner, -⟩ | ⟨rfl, hnone, howner⟩ |
    ⟨rfl, rfl, howner, -⟩
  · exact hs.congr (queried_prim (s := v.shared) howner)
  · have hqueried : Queried (v.trace ++ [.prim id t p r]) :=
      ⟨id, t, c, howner, List.mem_append_left _ (hb.called t id c hc), hq⟩
    refine ⟨fun _ => ?_, fun hnot => absurd hqueried hnot⟩
    rw [hs.same (not_queried hnone), LinuxMutexes.setObject_setObject]
    exact (LinuxMutexes.setObject_eq_self (h.object hnone)).symm
  · have howner' : owner v.trace = some (id, t) := by
      rcases hinner with hp | hp | hp | hp | ⟨-, hp⟩
      · cases hp
      · cases hp
      · cases hp
      · cases hp
      · exact hp id c hc hq
    have hqueried : Queried v.trace := (queried_iff hb howner' (hb.called t id c hc)).mpr hq
    exact ⟨fun hqu => absurd hqu (not_queried howner), fun _ => hs.queried hqueried⟩

omit [DecidableEq τ] in
/-- A step of another call can be taken without the queries, unless one was in its way. -/
theorem Unqueried.move (h : Inv a v G) (hb : Books v) (hc : v.calls t = some (id, c))
    (hq : isQuery c = false) {p : LinuxMutexOp Unit} {r : p.Res} {s s' : LinuxMutexes Unit τ}
    (hinner : Inner a v t p) (hexec : linuxMutexExec .ok t p v.shared = some (r, s))
    (hdisturbed : ¬ Disturbed (v.prim id t p r s).trace)
    (hs : Unqueried a v.trace v.shared s') :
    ∃ s₁, linuxMutexExec .ok t p s' = some (r, s₁) ∧ Unqueried a (v.prim id t p r s).trace s s₁ := by
  rcases h.exec_cases hinner hexec id with ⟨rfl, howner, hsame⟩ | ⟨rfl, hnone, howner⟩ |
    ⟨rfl, rfl, howner, hgive⟩
  · refine ⟨s', hsame s' ?_ ?_, hs.congr (queried_prim (s := v.shared) howner)⟩
    · by_cases hqu : Queried v.trace
      · rw [hs.queried hqu]
        rfl
      · rw [hs.same hqu]
    · rintro rfl
      refine hs.same fun hqu => hdisturbed (At.last ⟨⟨r, id, t, some a, rfl⟩, hqu⟩)
  · rw [hs.same (not_queried hnone)]
    have hnot : ¬ Queried (v.trace ++ [.prim id t p r]) := by
      rintro ⟨id', t', c', ho, hc', hq'⟩
      rw [howner] at ho
      cases ho
      have hcc := (hb.once id t t c c' (hb.called t id c hc) (by simpa using hc')).2
      rw [hcc, hq'] at hq
      cases hq
    exact ⟨_, hexec, fun hqu => absurd hqu hnot, fun _ => rfl⟩
  · have hstate : s'.setObject a (some (.ready none)) = v.shared.setObject a (some (.ready none)) ∧
        ∃ n, s'.object a = some (.ready n) := by
      by_cases hqu : Queried v.trace
      · rw [hs.queried hqu, LinuxMutexes.setObject_setObject]
        exact ⟨rfl, none, by simp⟩
      · rw [hs.same hqu]
        exact ⟨rfl, _, h.ready⟩
    obtain ⟨heq, n, hready⟩ := hstate
    exact ⟨_, hgive s' n hready, fun hqu => absurd hqu (not_queried howner), fun _ => heq⟩

/-- A step is taken. -/
theorem Follows.prim (h : Follows a s₀ pl pl') (hinv : Inv a pl.view G) (hb : Books pl.view)
    {p : LinuxMutexOp Unit} {k : p.Res → Prog (linuxMutexSig Unit) TtVal} {r : p.Res}
    {s : LinuxMutexes Unit τ} (hinner : Inner a pl.view t p) (hc : pl.view.calls t = some (id, c))
    (hp : pl.prog t = some (.step p k))
    (hexec : linuxMutexExec .ok t p pl.view.shared = some (r, s))
    (hdisturbed : ¬ Disturbed (pl.view.prim id t p r s).trace) {pl₁ : QueryPool τ}
    (hpl₁ : pl₁ = ⟨pl.view.prim id t p r s, Function.update pl.prog t (some (k r))⟩) :
    ∃ pl₁', Follows a s₀ pl₁ pl₁' := by
  subst hpl₁
  have ht := h.thread t
  unfold Mirrors at ht
  rw [hc] at ht
  have hpast := h.past
  simp only [history] at hpast
  cases hq : isQuery c with
  | true =>
      simp only [hq, if_true] at ht
      refine ⟨pl', h.reach, h.plain, by simp [history, hpast],
        Unqueried.stay hinv hb hc hq hinner hexec h.state, ?_⟩
      intro u
      by_cases hu : u = t
      · subst hu
        simp [Mirrors, hc, hq, ht]
      · simpa [hu] using h.thread u
  | false =>
      simp only [hq, Bool.false_eq_true, if_false] at ht
      obtain ⟨id', hc', hp'⟩ := ht
      rw [hp] at hp'
      obtain ⟨s₁, hexec', hstate⟩ := Unqueried.move hinv hb hc hq hinner hexec hdisturbed h.state
      refine ⟨⟨pl'.view.prim id' t p r s₁, Function.update pl'.prog t (some (k r))⟩,
        h.reach.step (.prim t ()) trivial (Sys.step_prim_eq hc' hp' hexec' rfl), ?_,
        by simp [history, hpast], hstate, ?_⟩
      · intro id'' u c' hcall
        exact h.plain id'' u c' (by simpa using hcall)
      · intro u
        by_cases hu : u = t
        · subst hu
          simp [Mirrors, hc, hq, hc']
        · simpa [hu] using h.thread u

/-- **The queries can be deleted**, unless one was in somebody's way. -/
theorem follows_of_reach (hs : s₀.mutex () = ⟨some a, true⟩)
    (hready : s₀.object a = some (.ready none)) (h : (steadySys τ).Reach Client s₀ pl)
    (hdisturbed : ¬ Disturbed pl.view.trace) : ∃ pl', Follows a s₀ pl pl' := by
  induction h with
  | start =>
      refine ⟨Sys.start s₀, .start, ?_, rfl, ⟨?_, fun _ => rfl⟩, fun _ => rfl⟩
      · intro id t c hc
        cases hc
      · rintro ⟨_, _, _, ho, -⟩
        cases ho
  | @step pl pl₁ hreach l hok hstep ih =>
      obtain ⟨G, hinv, hth⟩ := reach_inv hs hready hreach
      have hbefore : ∀ e, pl₁.view.trace = pl.view.trace ++ [e] → ¬ Disturbed pl.view.trace := by
        intro e he hd
        rw [he] at hdisturbed
        exact hdisturbed (hd.snoc e)
      cases l with
      | call t c =>
          obtain ⟨hnone, rfl⟩ := Sys.step_call hstep
          obtain ⟨pl', hfollows⟩ := ih (hbefore _ rfl)
          have hidle : G t = .idle := by simpa [Outline.Thread, hnone, outline] using hth t
          exact hfollows.call hinv hidle hreach.books hnone hok rfl
      | prim t x =>
          obtain ⟨id, c, p, k, r, s, hc, hp, hexec, rfl⟩ := Sys.step_prim hstep
          obtain ⟨pl', hfollows⟩ := ih (hbefore _ rfl)
          have hinner : Inner a pl.view t p :=
            (outline a τ).sound_pre (inv_start hs hready) safe_call hreach
              (fun hstop => hstop) hc hp
          exact hfollows.prim hinv hreach.books hinner hc hp hexec hdisturbed rfl
      | ret t =>
          obtain ⟨id, c, x, hc, hp, rfl⟩ := Sys.step_ret hstep
          obtain ⟨pl', hfollows⟩ := ih (hbefore _ rfl)
          exact hfollows.ret hc hp rfl

/-- Nobody tries to take the mutex while call `id` of a query has it. -/
def undisturbed (tr₁ : List (QueryEvent τ)) : QueryEvent τ → Bool
  | .prim _ _ (.pthreadMutexTrylock _) _ =>
      tr₁.all fun
        | .call id _ c => !isQuery c || (owner tr₁).all fun o => o.1 != id
        | _ => true
  | _ => true

omit [DecidableEq τ] in
theorem not_disturbed {tr : List (QueryEvent τ)} (h : At.checks undisturbed [] tr = true) :
    ¬ Disturbed tr := by
  refine At.not_of_checks ?_ h
  rintro tr₁ e ⟨⟨r, id, t, p, rfl⟩, id', t', c, ho, hc, hq⟩
  refine Bool.eq_false_iff.mpr fun hall => ?_
  have hne := List.all_eq_true.mp hall _ hc
  simp [hq, ho] at hne

/-- A mutex with the object at 10. -/
def ready : LinuxMutexes Unit Nat :=
  LinuxMutexes.zero.setMutex () ⟨some 10, true⟩ |>.setObject 10 (some (.ready none))

theorem initialised_ready : Initialised ready := ⟨rfl, 10, rfl, rfl⟩

/-- A lock that waits for a query, and a trylock that finds the mutex locked. -/
def apart : List (Label Nat Unit (MutexCall Unit)) :=
  List.flatten [
    .call 0 (.isLocked (some ())) :: List.replicate 3 (.prim 0 ()),
    .call 1 (.lock (some ())) :: List.replicate 2 (.prim 1 ()),
    [.prim 0 (), .ret 0, .prim 1 (), .ret 1],
    .call 0 (.trylock (some ())) :: List.replicate 3 (.prim 0 ()), [.ret 0]]

/-- A trylock while a query looks. -/
def between : List (Label Nat Unit (MutexCall Unit)) :=
  List.flatten [
    .call 0 (.isLocked (some ())) :: List.replicate 3 (.prim 0 ()),
    .call 1 (.trylock (some ())) :: List.replicate 3 (.prim 1 ()), [.ret 1, .prim 0 (), .ret 0]]

end MutexQuery

open MutexQuery in
/--
**A query is harmless exactly if nobody tries to take the mutex while it looks.**
From an initialised free mutex, in every run: what each call returned is what its own
call of pthreads answered.  Everybody who was told that the mutex is taken, by a
`TT_ERROR_BUSY` or a true, was told so while a thread held it, and the queries can be
deleted from the run without changing the result of any other call, if and only if no
trylock and no query tried to take the mutex while it was in the hands of a query.
-/
theorem ttPlatformMutexIsLocked_harmless_iff {τ : Type} [DecidableEq τ] {s₀ : LinuxMutexes Unit τ}
    (hs : Initialised s₀) {pl : QueryPool τ} (h : (steadySys τ).Reach Client s₀ pl) :
    Told (s₀.mutex ()).lock pl.view.trace ∧
      ((Honest pl.view.trace ∧ Deletable s₀ pl.view.trace) ↔ ¬ Disturbed pl.view.trace) := by
  obtain ⟨a, hlock, hready⟩ := hs.ready
  have hmutex : s₀.mutex () = ⟨some a, true⟩ := by
    rw [← hlock, ← hs.initialized]
  have hhonest := honest_iff hmutex hready h
  refine ⟨?_, fun hboth => hhonest.mp hboth.1, fun hnot => ⟨hhonest.mpr hnot, ?_⟩⟩
  · rw [hlock]
    exact told_of_reach hmutex hready h
  · obtain ⟨pl', hfollows⟩ := follows_of_reach hmutex hready h hnot
    exact ⟨pl', hfollows.reach, hfollows.plain, hfollows.past⟩

open MutexQuery in
/-- A query, a lock that waits for it, and a trylock that is told of the lock. -/
theorem ttPlatformMutexIsLocked_harmless_apart :
    ∃ pl : QueryPool Nat, .ret 0 0 (.isLocked (some ())) (.bool false) ∈ pl.view.trace ∧
      .ret 1 1 (.lock (some ())) (.err .success) ∈ pl.view.trace ∧
      .ret 2 0 (.trylock (some ())) (.err .busy) ∈ pl.view.trace ∧
      Told (some 10) pl.view.trace ∧ Honest pl.view.trace ∧ Deletable ready pl.view.trace := by
  have hrun : ((steadySys Nat).run Client apart (Sys.start ready)).isSome = true := rfl
  have hreach := Sys.Reach.run _ .start (Option.some_get hrun).symm
  obtain ⟨htold, hiff⟩ := ttPlatformMutexIsLocked_harmless_iff initialised_ready hreach
  exact ⟨_, List.mem_of_getElem? (i := 8) rfl, List.mem_of_getElem? (i := 10) rfl,
    List.mem_of_getLast? rfl, htold, hiff.mpr (not_disturbed rfl)⟩

open MutexQuery in
/-- **A trylock is told that a free mutex is busy**, because a query looks at it. -/
theorem ttPlatformMutexIsLocked_disturbs :
    ∃ pl : QueryPool Nat, (steadySys Nat).Reach Client ready pl ∧
      .ret 1 1 (.trylock (some ())) (.err .busy) ∈ pl.view.trace ∧
      ¬ (Honest pl.view.trace ∧ Deletable ready pl.view.trace) := by
  have hrun : ((steadySys Nat).run Client between (Sys.start ready)).isSome = true := rfl
  have hreach := Sys.Reach.run _ .start (Option.some_get hrun).symm
  refine ⟨_, hreach, List.mem_of_getElem? (i := 8) rfl, ?_⟩
  rintro ⟨hhonest, -⟩
  refine (honest_iff (a := 10) rfl rfl hreach).mp hhonest ?_
  refine At.of_get 7 (Nat.le_of_ble_eq_true rfl) ⟨⟨false, 1, 1, some 10, rfl⟩, ?_⟩
  exact ⟨0, 0, .isLocked (some ()), rfl, List.mem_of_getElem? (i := 0) rfl, rfl⟩

end TinyTools
