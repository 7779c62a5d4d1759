/-
An interface and its implementation, in any interleaving.

`Prog.handle` puts a program in the place of each primitive.  `Implements` says what has
to be shown of these programs: at one of its steps, whichever it is, a program does to the
state what the primitive does, and its other steps change nothing that matters.  What a
thread in the midst of such a program knows is `busy`, and it has to survive the steps of
all the others.

`Implements.refines` is the simulation.  A pool of the lower level is matched by one of
the upper level in which the same calls have been made, have done what is shown of them
and have returned the same values, all in the same order.  It composes: what is shown of
the lower level of one step is what is shown of the upper level of the next.
-/
import TinyTools.Lib.Locked

namespace Interleave

variable {S T U V W O : Sig} {τ χ χ' σ σ' κ α β : Type}

/-! ### What is seen -/

/-- No primitives. -/
abbrev Sig.empty : Sig := ⟨Empty, nofun⟩

/-- What is shown of a primitive performed. -/
abbrev Showing (S O : Sig) := S.Done → Option O.Done

/-- Of a module over an interface its own primitives. -/
def own : Showing (S.sum T) S
  | ⟨.inl p, r⟩ => some ⟨p, r⟩
  | ⟨.inr _, _⟩ => none

/-- What is seen of an event. -/
def Event.seen (w : Showing S O) : Event S τ κ α → Option (Event O τ κ α)
  | .call id t c => some (.call id t c)
  | .prim id t p r => (w ⟨p, r⟩).map fun d => .prim id t d.1 d.2
  | .ret id t c a => some (.ret id t c a)

/-- What is seen of a trace. -/
def seen (w : Showing S O) (tr : List (Event S τ κ α)) : List (Event O τ κ α) :=
  tr.filterMap (Event.seen w)

variable {w : Showing S O} {tr : List (Event S τ κ α)}

@[simp] theorem seen_append (tr tr' : List (Event S τ κ α)) :
    seen w (tr ++ tr') = seen w tr ++ seen w tr' :=
  List.filterMap_append

@[simp] theorem seen_call (id : Nat) (t : τ) (c : κ) :
    seen w [(.call id t c : Event S τ κ α)] = [.call id t c] := rfl

@[simp] theorem seen_ret (id : Nat) (t : τ) (c : κ) (a : α) :
    seen w [(.ret id t c a : Event S τ κ α)] = [.ret id t c a] := rfl

theorem seen_prim (id : Nat) (t : τ) (p : S.Op) (r : S.Res p) :
    seen w [(.prim id t p r : Event S τ κ α)]
      = (w ⟨p, r⟩).toList.map fun d => .prim id t d.1 d.2 := by
  unfold seen
  cases h : w ⟨p, r⟩ <;> simp [Event.seen, h]

theorem call_mem_seen {id : Nat} {t : τ} {c : κ} :
    .call id t c ∈ seen w tr ↔ .call id t c ∈ tr := by
  refine ⟨?_, fun h => List.mem_filterMap.mpr ⟨_, h, rfl⟩⟩
  intro h
  obtain ⟨e, he, heq⟩ := List.mem_filterMap.mp h
  rcases e with ⟨id', u, c'⟩ | ⟨id', u, p, r⟩ | ⟨id', u, c', a⟩
  · cases heq
    exact he
  · obtain ⟨d, -, hd⟩ := Option.map_eq_some_iff.mp heq
    cases hd
  · cases heq

theorem ret_mem_seen {id : Nat} {t : τ} {c : κ} {a : α} :
    .ret id t c a ∈ seen w tr ↔ .ret id t c a ∈ tr := by
  refine ⟨?_, fun h => List.mem_filterMap.mpr ⟨_, h, rfl⟩⟩
  intro h
  obtain ⟨e, he, heq⟩ := List.mem_filterMap.mp h
  rcases e with ⟨id', u, c'⟩ | ⟨id', u, p, r⟩ | ⟨id', u, c', a'⟩
  · cases heq
  · obtain ⟨d, -, hd⟩ := Option.map_eq_some_iff.mp heq
    cases hd
  · cases heq
    exact he

/-- Which calls precede which is seen. -/
theorem precedes_seen {i j : Nat} : Precedes (seen w tr) i j ↔ Precedes tr i j := by
  refine ⟨?_, ?_⟩
  · rintro ⟨tr₁, e, tr₂, htr, ⟨t, c, rfl⟩, u, c', v, hret⟩
    obtain ⟨A, B, rfl, hA, hB⟩ := List.filterMap_eq_append_iff.mp htr
    obtain ⟨B₁, b, B₂, rfl, hB₁, hb, -⟩ := List.filterMap_eq_cons_iff.mp hB
    subst hA
    rcases b with ⟨id, t', c''⟩ | ⟨id, t', p, r⟩ | ⟨id, t', c'', a⟩
    · cases hb
      refine ⟨A ++ B₁, _, B₂, by rw [List.append_assoc], ⟨t, c, rfl⟩, u, c', v, ?_⟩
      exact List.mem_append_left _ (ret_mem_seen.mp hret)
    · obtain ⟨d, -, hd⟩ := Option.map_eq_some_iff.mp hb
      cases hd
    · cases hb
  · rintro ⟨tr₁, e, tr₂, rfl, ⟨t, c, rfl⟩, u, c', v, hret⟩
    refine ⟨seen w tr₁, .call j t c, seen w tr₂, ?_, ⟨t, c, rfl⟩, u, c', v, ret_mem_seen.mpr hret⟩
    rw [seen_append, ← List.singleton_append, seen_append]
    rfl

/-- What a call is seen to perform. -/
theorem prims_seen (tr : List (Event S τ κ α)) (id : Nat) :
    prims (seen w tr) id = (prims tr id).filterMap w := by
  simp only [prims, seen, List.filterMap_filterMap]
  refine List.filterMap_congr fun e _ => ?_
  rcases e with ⟨id', t, c⟩ | ⟨id', t, p, r⟩ | ⟨id', t, c, a⟩
  · rfl
  · by_cases hid : id' = id
    · cases hw : w ⟨p, r⟩ <;> simp [Event.seen, hid, hw]
    · cases hw : w ⟨p, r⟩ <;> simp [Event.seen, hid, hw]
  · rfl

/-- The calls of `L`, one after the other, may stand for those of a trace: they respect real time,
and whoever is done has returned. -/
structure Orders (tr : List (Event O τ κ α)) (calls : τ → Option (Nat × κ))
    (L : List (LogEntry S τ κ α)) : Prop where
  nodup : (L.map LogEntry.id).Nodup
  called : ∀ e ∈ L, .call e.id e.thread e.call ∈ tr
  realTime : ∀ e₁ ∈ L, ∀ e₂ ∈ L, Precedes tr e₁.id e₂.id → [e₁, e₂].Sublist L
  completed : ∀ e ∈ L, calls e.thread = none → .ret e.id e.thread e.call e.val ∈ tr

/-- So it is for what is seen of a trace that is linearizable. -/
theorem Linearizes.orders {S' : Sys S τ χ σ κ α} {K : Locking S'.toMachine} {s₀ s : σ}
    {calls : τ → Option (Nat × κ)} {L : List (LogEntry S τ κ α)} (h : Linearizes S' K s₀ tr L s)
    (hdone : ∀ e ∈ L, calls e.thread = none → .ret e.id e.thread e.call e.val ∈ tr) :
    Orders (seen w tr) calls L where
  nodup := h.nodup
  called e he := call_mem_seen.mpr (h.called e he)
  realTime e₁ he₁ e₂ he₂ hprec := h.realTime e₁ he₁ e₂ he₂ (precedes_seen.mp hprec)
  completed e he hnone := ret_mem_seen.mpr (hdone e he hnone)

/-- Of a module over an interface what it does itself. -/
theorem prim_mem_seen {tr : List (Event (S.sum T) τ κ α)} {id : Nat} {t : τ} {p : S.Op}
    {r : S.Res p} : .prim id t p r ∈ seen own tr ↔ .prim id t (.inl p) r ∈ tr := by
  refine ⟨?_, fun h => List.mem_filterMap.mpr ⟨_, h, rfl⟩⟩
  intro h
  obtain ⟨e, he, heq⟩ := List.mem_filterMap.mp h
  rcases e with ⟨id', u, c'⟩ | ⟨id', u, p' | p', r'⟩ | ⟨id', u, c', a'⟩
  · cases heq
  · cases heq
    exact he
  · cases heq
  · cases heq

/-- What is seen of a module, as events of the module over its interface. -/
def Event.whole : Event S τ κ α → Event (S.sum T) τ κ α
  | .call id t c => .call id t c
  | .prim id t p r => .prim id t (.inl p) r
  | .ret id t c a => .ret id t c a

/-- What is read off the trace step by step, the interface left aside, can be read off what is
seen. -/
theorem foldl_seen {f : β → Event (S.sum T) τ κ α → β}
    (hf : ∀ b id t (p : T.Op) r, f b (.prim id t (.inr p) r) = b)
    (tr : List (Event (S.sum T) τ κ α)) (b : β) :
    ((seen own tr).map Event.whole).foldl f b = tr.foldl f b := by
  induction tr generalizing b with
  | nil => rfl
  | cons e tr ih =>
      rcases e with ⟨id, t, c⟩ | ⟨id, t, p | p, r⟩ | ⟨id, t, c, a⟩
      · exact ih _
      · exact ih _
      · rw [List.foldl_cons, hf]
        exact ih b
      · exact ih _

/-! ### Programs in the place of primitives -/

namespace Prog

/-- Replace every primitive by the program that handles it. -/
def handle (h : (p : S.Op) → Prog U (S.Res p)) : Prog S α → Prog U α
  | .ret a => .ret a
  | .step p k => (h p).bind fun r => (k r).handle h

theorem handle_bind (h : (p : S.Op) → Prog U (S.Res p)) (m : Prog S α) (f : α → Prog S β) :
    (m >>= f).handle h = m.handle h >>= fun a => (f a).handle h := by
  induction m with
  | ret a => rfl
  | step p k ih =>
      show (h p >>= fun r => (k r >>= f).handle h) = (h p >>= _) >>= _
      rw [bind_assoc]
      congr 1
      funext r
      exact ih r

/-- A module keeps its own primitives. -/
def beside (h : (p : T.Op) → Prog U (T.Res p)) :
    (p : (S.sum T).Op) → Prog (S.sum U) ((S.sum T).Res p)
  | .inl p => .op (S := S.sum U) (.inl p)
  | .inr p => (h p).inr

theorem link_eq_handle (h : (p : T.Op) → Prog U (T.Res p)) (m : Prog (S.sum T) α) :
    m.link h = m.handle (beside h) := by
  induction m with
  | ret a => rfl
  | step p k ih =>
      rcases p with p | p
      · show Prog.step _ _ = Prog.step _ _
        congr 1
        funext r
        exact ih r
      · show (h p).inr.bind _ = (h p).inr.bind _
        congr 1
        funext r
        exact ih r

theorem handle_handle (h : (p : S.Op) → Prog T (S.Res p)) (g : (p : T.Op) → Prog U (T.Res p))
    (m : Prog S α) : (m.handle h).handle g = m.handle fun p => (h p).handle g := by
  induction m with
  | ret a => rfl
  | step p k ih =>
      refine (handle_bind g (h p) _).trans ?_
      show (h p).handle g >>= _ = (h p).handle g >>= _
      congr 1
      funext r
      exact ih r

theorem inr_handle (g : (p : T.Op) → Prog U (T.Res p)) (m : Prog T α) :
    (m.inr : Prog (S.sum T) α).handle (beside g) = (m.handle g).inr := by
  induction m with
  | ret a => rfl
  | step p k ih =>
      refine Eq.trans ?_ (inr_bind (g p) _).symm
      show (g p).inr >>= _ = (g p).inr >>= _
      congr 1
      funext r
      exact ih r

/-- A module over a module over an interface. -/
theorem link_link (h : (p : T.Op) → Prog (V.sum U) (T.Res p)) (g : (p : U.Op) → Prog W (U.Res p))
    (m : Prog (S.sum T) α) :
    (m.link fun p => (h p).link g) = (m.link h).handle (beside (beside g)) := by
  rw [link_eq_handle, link_eq_handle, handle_handle]
  congr 1
  funext p
  rcases p with p | p
  · rfl
  · show ((h p).link g).inr = _
    rw [link_eq_handle]
    exact (inr_handle (beside g) (h p)).symm

end Prog

/-! ### Implementations -/

/-- Two machines, what is shown of each, and which of their states correspond. -/
structure Levels (S U O : Sig) (τ χ χ' σ σ' : Type) where
  upper : Machine S τ χ σ
  lower : Machine U τ χ' σ'
  shown : Showing S O
  shown' : Showing U O
  rel : σ → σ' → Prop

variable {D : Levels S U O τ χ χ' σ σ'}

/-- A primitive `p` that has not been answered is left to a later step, takes place now, or is come
to once more; one that has been answered is over.  Last comes what is shown of it. -/
inductive Effect (D : Levels S U O τ χ χ' σ σ') (t : τ) (p : S.Op) :
    σ → Option (S.Res p) → σ → Option (S.Res p) → Option O.Done → Prop
  | none (a : σ) (ans : Option (S.Res p)) : Effect D t p a ans a ans .none
  | now {a a' : σ} {r : S.Res p} (y : χ) (hexec : D.upper.exec y t p a = some (r, a'))
      (hagain : D.upper.again p r = false) : Effect D t p a .none a' (some r) (D.shown ⟨p, r⟩)
  | again {a a' : σ} {r : S.Res p} (y : χ) (hexec : D.upper.exec y t p a = some (r, a'))
      (hagain : D.upper.again p r = true) : Effect D t p a .none a' .none (D.shown ⟨p, r⟩)

/-- The programs `h` do at the lower level what the primitives do at the upper one, for callers that
come only to primitives of which `P` holds. -/
structure Implements (D : Levels S U O τ χ χ' σ σ') (h : (p : S.Op) → Prog U (S.Res p))
    (P : S.Op → Prop) where
  /-- A thread performs `p`, which may have been answered, and has come to a rest of `h p`. -/
  busy : σ → σ' → τ → (p : S.Op) → Option (S.Res p) → Prog U (S.Res p) → Prop
  start : ∀ {a c t p}, P p → D.rel a c → busy a c t p none (h p)
  finish : ∀ {a c t p ans r}, busy a c t p ans (.ret r) → ans = some r
  step : ∀ {a c x t p ans q k r c'}, D.rel a c → busy a c t p ans (.step q k) →
    D.lower.exec x t q c = some (r, c') →
    ∃ a' ans', Effect D t p a ans a' ans' (D.shown' ⟨q, r⟩) ∧ D.rel a' c' ∧
      busy a' c' t p ans' (if D.lower.again q r then .step q k else k r) ∧
      ∀ u p' ans m, u ≠ t → busy a c u p' ans m → busy a' c' u p' ans m

namespace Implements

/-- What a caller that performs `p` is up to, seen from above. -/
def rest (p : S.Op) (k : S.Res p → Prog S α) : Option (S.Res p) → Prog S α
  | none => .step p k
  | some r => k r

variable {h : (p : S.Op) → Prog U (S.Res p)} {P : S.Op → Prop}

/-- Where a thread stands: outside the programs of the interface, or in the midst of one. -/
def Stands (I : Implements D h P) (a : σ) (c : σ') (t : τ) (ma : Prog S α) (mc : Prog U α) : Prop :=
  (ma.Every P ∧ mc = ma.handle h) ∨
    ∃ (p : S.Op) (k : S.Res p → Prog S α) (ans : Option (S.Res p)) (m : Prog U (S.Res p)),
      (∀ r, (k r).Every P) ∧ ma = rest p k ans ∧ mc = m.bind (fun r => (k r).handle h) ∧
        I.busy a c t p ans m

variable {I : Implements D h P} {a a' : σ} {c c' : σ'} {t : τ} {ma : Prog S α} {mc : Prog U α}

/-- A thread that did not move. -/
theorem Stands.other (hs : I.Stands a c t ma mc)
    (hbusy : ∀ p ans m, I.busy a c t p ans m → I.busy a' c' t p ans m) : I.Stands a' c' t ma mc := by
  rcases hs with hout | ⟨p, k, ans, m, hk, hma, hmc, hb⟩
  · exact Or.inl hout
  · exact Or.inr ⟨p, k, ans, m, hk, hma, hmc, hbusy p ans m hb⟩

/-- A program of the interface takes at least one step. -/
theorem start_step (I : Implements D h P) (hrel : D.rel a c) (t : τ) {p : S.Op} (hp : P p) :
    ∃ q k, h p = .step q k := by
  have hb := I.start (t := t) hp hrel
  cases hm : h p with
  | ret r =>
      rw [hm] at hb
      cases I.finish hb
  | step q k => exact ⟨q, k, rfl⟩

/-- A thread at a value has come to the same value above. -/
theorem Stands.ret {v : α} (hrel : D.rel a c) (hs : I.Stands a c t ma (.ret v)) : ma = .ret v := by
  have hout : ∀ m : Prog S α, m.Every P → Prog.ret v = m.handle h → m = .ret v := by
    intro m hm hlink
    cases m with
    | ret b =>
        cases hlink
        rfl
    | step p k =>
        obtain ⟨q, kq, hq⟩ := I.start_step hrel t hm.1
        simp only [Prog.handle, hq] at hlink
        cases hlink
  rcases hs with ⟨hm, hlink⟩ | ⟨p, k, ans, m, hk, rfl, hmc, hb⟩
  · exact hout ma hm hlink
  · cases m with
    | ret r =>
        rw [I.finish hb]
        exact hout (k r) (hk r) hmc
    | step q kq => cases hmc

/-- A thread at a primitive is at one of a program of the interface. -/
theorem Stands.step {q : U.Op} {K : U.Res q → Prog U α} (hrel : D.rel a c)
    (hs : I.Stands a c t ma (.step q K)) :
    ∃ p k ans kq, (∀ r, (k r).Every P) ∧ ma = rest p k ans ∧ I.busy a c t p ans (.step q kq) ∧
      K = fun r => (kq r).bind fun r => (k r).handle h := by
  have hout : ∀ m : Prog S α, m.Every P → Prog.step q K = m.handle h →
      ∃ p k ans kq, (∀ r, (k r).Every P) ∧ m = rest p k ans ∧ I.busy a c t p ans (.step q kq) ∧
        K = fun r => (kq r).bind fun r => (k r).handle h := by
    intro m hm hlink
    cases m with
    | ret b => cases hlink
    | step p k =>
        obtain ⟨u, ku, hu⟩ := I.start_step hrel t hm.1
        have hb := I.start (t := t) hm.1 hrel
        rw [hu] at hb
        simp only [Prog.handle, hu] at hlink
        cases hlink
        exact ⟨p, k, none, ku, hm.2, rfl, hb, rfl⟩
  rcases hs with ⟨hm, hlink⟩ | ⟨p, k, ans, m, hk, rfl, hmc, hb⟩
  · exact hout ma hm hlink
  · cases m with
    | ret r =>
        rw [I.finish hb]
        exact hout (k r) (hk r) hmc
    | step u ku =>
        cases hmc
        exact ⟨p, k, ans, ku, hk, rfl, hb, rfl⟩

/-- What a thread has come to after a step. -/
theorem Stands.stepped {p : S.Op} {k : S.Res p → Prog S α} {ans : Option (S.Res p)} {q : U.Op}
    {kq : U.Res q → Prog U (S.Res p)} (hk : ∀ r, (k r).Every P) (b : Bool) (r : U.Res q)
    (hb : I.busy a c t p ans (if b then .step q kq else kq r)) :
    I.Stands a c t (rest p k ans) (if b then .step q fun r => (kq r).bind fun r => (k r).handle h
      else (kq r).bind fun r => (k r).handle h) := by
  refine Or.inr ⟨p, k, ans, _, hk, rfl, ?_, hb⟩
  split <;> rfl

/-- What runs alone below runs alone above. -/
theorem run {v : α} {es : List U.Done} (hrun : D.lower.Run t mc c es v c') :
    ∀ {a : σ} {ma : Prog S α}, D.rel a c → I.Stands a c t ma mc →
      ∃ a' es', D.upper.Run t ma a es' v a' ∧ D.rel a' c' := by
  induction hrun with
  | ret v s =>
      intro a ma hrel hs
      rw [hs.ret hrel]
      exact ⟨a, [], .ret v a, hrel⟩
  | @step q K s s₁ s₂ r es v x hexec hdone _ ih =>
      intro a ma hrel hs
      obtain ⟨p, k, ans, kq, hk, rfl, hb, rfl⟩ := hs.step hrel
      obtain ⟨a', ans', heffect, hrel', hbusy, -⟩ := I.step hrel hb hexec
      have hstands := Stands.stepped hk _ r hbusy
      rw [if_neg (Bool.eq_false_iff.mp hdone)] at hstands
      obtain ⟨a₂, es', hrun', hrel₂⟩ := ih hrel' hstands
      generalize D.shown' ⟨q, r⟩ = d at heffect
      cases heffect with
      | none => exact ⟨a₂, es', hrun', hrel₂⟩
      | @now _ r' y hy hagain => exact ⟨a₂, _, .step y hy hagain hrun', hrel₂⟩
      | @again _ r' y hy hagain => exact ⟨a₂, _, .again y hy hagain hrun', hrel₂⟩
  | @again q K s s₁ s₂ r es v x hexec hagain₀ _ ih =>
      intro a ma hrel hs
      obtain ⟨p, k, ans, kq, hk, rfl, hb, rfl⟩ := hs.step hrel
      obtain ⟨a', ans', heffect, hrel', hbusy, -⟩ := I.step hrel hb hexec
      have hstands := Stands.stepped hk _ r hbusy
      rw [if_pos hagain₀] at hstands
      obtain ⟨a₂, es', hrun', hrel₂⟩ := ih hrel' hstands
      generalize D.shown' ⟨q, r⟩ = d at heffect
      cases heffect with
      | none => exact ⟨a₂, es', hrun', hrel₂⟩
      | @now _ r' y hy hagain => exact ⟨a₂, _, .step y hy hagain hrun', hrel₂⟩
      | @again _ r' y hy hagain => exact ⟨a₂, _, .again y hy hagain hrun', hrel₂⟩

/-- A function that runs alone below runs alone above. -/
theorem returns (I : Implements D h P) {m : Prog S α} (hm : m.Every P) (hrel : D.rel a c) {v : α}
    (hreturns : D.lower.Returns t (m.handle h) c v c') :
    ∃ a', D.upper.Returns t m a v a' ∧ D.rel a' c' := by
  obtain ⟨es, hrun⟩ := hreturns
  obtain ⟨a', es', hrun', hrel'⟩ := I.run hrun hrel (Or.inl ⟨hm, rfl⟩)
  exact ⟨a', ⟨es', hrun'⟩, hrel'⟩

end Implements

/-! ### The simulation -/

variable [DecidableEq τ]

/-- The clients' promise, as a condition on what is seen. -/
def promise (w : Showing S O) (ok : List (Event O τ κ α) → τ → κ → Prop) (v : View S τ σ κ α) (t : τ)
    (c : κ) : Prop :=
  ok (seen w v.trace) t c

namespace Levels

/-- The functions at the upper level. -/
def above (D : Levels S U O τ χ χ' σ σ') (body : κ → Prog S α) : Sys S τ χ σ κ α where
  toMachine := D.upper
  body := body

/-- The functions at the lower level. -/
def below (D : Levels S U O τ χ χ' σ σ') (body : κ → Prog U α) : Sys U τ χ' σ' κ α where
  toMachine := D.lower
  body := body

end Levels

namespace Implements

variable {h : (p : S.Op) → Prog U (S.Res p)} {P : S.Op → Prop} {f : κ → Prog S α} {g : κ → Prog U α}

/-- Pools of the two levels that cannot be told apart. -/
structure Matches (I : Implements D h P) (pa : Pool S τ σ κ α) (pc : Pool U τ σ' κ α) : Prop where
  rel : D.rel pa.view.shared pc.view.shared
  seen : seen D.shown pa.view.trace = seen D.shown' pc.view.trace
  calls : pa.view.calls = pc.view.calls
  next : pa.view.next = pc.view.next
  thread : ∀ t id c mc, pc.view.calls t = some (id, c) → pc.prog t = some mc →
    ∃ ma, pa.prog t = some ma ∧ I.Stands pa.view.shared pc.view.shared t ma mc

variable {I : Implements D h P} {pa : Pool S τ σ κ α} {pc : Pool U τ σ' κ α} {t : τ} {id : Nat} {c : κ}

omit [DecidableEq τ] in
theorem Matches.start {a : σ} {s : σ'} (hrel : D.rel a s) :
    Matches I (Sys.start a : Pool S τ σ κ α) (Sys.start s) := by
  refine ⟨hrel, rfl, rfl, rfl, ?_⟩
  intro t id c mc hc
  cases hc

/-- Both call. -/
theorem Matches.call (hm : Matches I pa pc) (hbody : g c = (f c).handle h) (hP : (f c).Every P) :
    Matches I ⟨pa.view.call t c, Function.update pa.prog t (some (f c))⟩
      ⟨pc.view.call t c, Function.update pc.prog t (some (g c))⟩ := by
  refine ⟨hm.rel, ?_, ?_, ?_, ?_⟩
  · rw [View.call_trace, View.call_trace, seen_append, seen_append, hm.seen, hm.next]
    rfl
  · rw [View.call_calls, View.call_calls, hm.calls, hm.next]
  · rw [View.call_next, View.call_next, hm.next]
  · intro u id' c' mc hc hmc
    by_cases hu : u = t
    · subst hu
      have hmc' : g c = mc := by simpa using hmc
      exact ⟨f c, Function.update_self .., Or.inl ⟨hP, hmc'.symm.trans hbody⟩⟩
    · obtain ⟨ma, hma, hs⟩ := hm.thread u id' c' mc (by simpa [hu] using hc)
        (by simpa [hu] using hmc)
      exact ⟨ma, by simpa [hu] using hma, hs⟩

/-- Both return. -/
theorem Matches.ret (hm : Matches I pa pc) (a : α) :
    Matches I ⟨pa.view.ret id t c a, Function.update pa.prog t none⟩
      ⟨pc.view.ret id t c a, Function.update pc.prog t none⟩ := by
  refine ⟨hm.rel, ?_, ?_, hm.next, ?_⟩
  · rw [View.ret_trace, View.ret_trace, seen_append, seen_append, hm.seen]
    rfl
  · rw [View.ret_calls, View.ret_calls, hm.calls]
  · intro u id' c' mc hc hmc
    by_cases hu : u = t
    · subst hu
      simp at hc
    · obtain ⟨ma, hma, hs⟩ := hm.thread u id' c' mc (by simpa [hu] using hc)
        (by simpa [hu] using hmc)
      exact ⟨ma, by simpa [hu] using hma, hs⟩

/-- Thread `t` performs a primitive below, which may be none above. -/
theorem Matches.prim (hm : Matches I pa pc) {v : View S τ σ κ α} {m : τ → Option (Prog S α)}
    {p : U.Op} {r : U.Res p} {s : σ'} {ma : Prog S α} {mc : Prog U α} (hrel : D.rel v.shared s)
    (hseen : Interleave.seen D.shown v.trace
      = Interleave.seen D.shown' (pc.view.trace ++ [.prim id t p r]))
    (hcalls : v.calls = pc.view.calls) (hnext : v.next = pc.view.next)
    (hprog : m = Function.update pa.prog t (some ma)) (hs : I.Stands v.shared s t ma mc)
    (hothers : ∀ u p' ans m, u ≠ t → I.busy pa.view.shared pc.view.shared u p' ans m →
      I.busy v.shared s u p' ans m) :
    Matches I ⟨v, m⟩ ⟨pc.view.prim id t p r s, Function.update pc.prog t (some mc)⟩ := by
  subst hprog
  refine ⟨hrel, hseen, hcalls, hnext, ?_⟩
  intro u id' c' mc' hc hmc
  by_cases hu : u = t
  · subst hu
    have hmc' : mc = mc' := by simpa using hmc
    exact ⟨ma, Function.update_self .., hmc' ▸ hs⟩
  · obtain ⟨ma', hma, hs'⟩ := hm.thread u id' c' mc' hc (by simpa [hu] using hmc)
    exact ⟨ma', by simpa [hu] using hma, hs'.other fun p' ans m => hothers u p' ans m hu⟩

/-- A program that stays where it is. -/
theorem update_again {f : τ → Option β} {m : β} (hf : f t = some m) (b : Bool) (m' : β) :
    (if b then f else Function.update f t (some m'))
      = Function.update f t (some (if b then m else m')) := by
  cases b with
  | false => rfl
  | true => exact (Function.update_eq_self_iff.mpr hf.symm).symm

/-- A primitive below is one above, or none. -/
theorem Matches.step_prim (hm : Matches I pa pc) {x : χ'} {pc' : Pool U τ σ' κ α}
    (hstep : (D.below g).step (.prim t x) pc = some pc') :
    ∃ pa', (pa' = pa ∨ ∃ y, (D.above f).step (.prim t y) pa = some pa') ∧ Matches I pa' pc' := by
  obtain ⟨id, c, q, K, r, s, hc, hp, hexec, rfl⟩ := Sys.step_prim hstep
  obtain ⟨ma, hma, hs⟩ := hm.thread t id c _ hc hp
  have hca : pa.view.calls t = some (id, c) := by rw [hm.calls, hc]
  rw [update_again hp]
  obtain ⟨p, k, ans, kq, hk, rfl, hb, rfl⟩ := hs.step hm.rel
  obtain ⟨a', ans', heffect, hrel, hbusy, hothers⟩ := I.step hm.rel hb hexec
  have hstands := Stands.stepped hk _ r hbusy
  have hseen : ∀ (p' : S.Op) (r' : S.Res p'), D.shown ⟨p', r'⟩ = D.shown' ⟨q, r⟩ →
      Interleave.seen D.shown (pa.view.trace ++ [.prim id t p' r'])
        = Interleave.seen D.shown' (pc.view.trace ++ [.prim id t q r]) := by
    intro p' r' heq
    rw [seen_append, seen_append, hm.seen, seen_prim, seen_prim, heq]
  generalize hw : D.shown' ⟨q, r⟩ = d at heffect
  cases heffect with
  | none =>
      refine ⟨pa, Or.inl rfl, hm.prim (v := pa.view) (m := pa.prog) hrel ?_ hm.calls hm.next ?_
        hstands hothers⟩
      · rw [seen_append, seen_prim, hw, hm.seen]
        exact (List.append_nil _).symm
      · exact (Function.update_eq_self_iff.mpr hma.symm).symm
  | @now _ r' y hy hagain =>
      exact ⟨_, Or.inr ⟨y, (Sys.step_prim_eq hca hma hy hagain : (D.above f).step (.prim t y) pa = _)⟩,
        hm.prim hrel (hseen p r' hw.symm) hm.calls hm.next rfl hstands hothers⟩
  | @again _ r' y hy hagain =>
      refine ⟨⟨pa.view.prim id t p r' a', pa.prog⟩, Or.inr ⟨y, ?_⟩,
        hm.prim hrel (hseen p r' hw.symm) hm.calls hm.next ?_ hstands hothers⟩
      · simp only [Sys.step, hca, hma, rest]
        show (D.upper.exec y t p pa.view.shared).map _ = _
        rw [hy]
        simp [Levels.above, hagain]
      · exact (Function.update_eq_self_iff.mpr hma.symm).symm

/--
**The lower level does nothing that cannot be done at the upper one.**  Every pool that it
reaches is matched by one that the upper level reaches, for clients that promise the same
of what they see.
-/
theorem refines (I : Implements D h P) {ok : List (Event O τ κ α) → τ → κ → Prop}
    (hbody : ∀ tr t c, ok tr t c → g c = (f c).handle h)
    (hP : ∀ tr t c, ok tr t c → (f c).Every P) {a : σ} {s : σ'} (hrel : D.rel a s)
    (hreach : (D.below g).Reach (promise D.shown' ok) s pc) :
    ∃ pa, (D.above f).Reach (promise D.shown ok) a pa ∧ Matches I pa pc := by
  induction hreach with
  | start => exact ⟨_, .start, .start hrel⟩
  | @step pc pc' _ l hok hstep ih =>
      obtain ⟨pa, hpa, hm⟩ := ih
      cases l with
      | call t c =>
          obtain ⟨hnone, rfl⟩ := Sys.step_call hstep
          have hoka : promise D.shown ok pa.view t c := by
            unfold promise
            rw [hm.seen]
            exact hok
          have hca : pa.view.calls t = none := by rw [hm.calls, hnone]
          refine ⟨_, hpa.step (.call t c) hoka ?_, hm.call (hbody _ _ _ hok) (hP _ _ _ hok)⟩
          simp [Sys.step, hca, Levels.above]
      | prim t x =>
          obtain ⟨pa', hpa', hm'⟩ := hm.step_prim (f := f) hstep
          rcases hpa' with rfl | ⟨y, hy⟩
          · exact ⟨pa', hpa, hm'⟩
          · exact ⟨pa', hpa.step (.prim t y) trivial hy, hm'⟩
      | ret t =>
          obtain ⟨id, c, v, hc, hp, rfl⟩ := Sys.step_ret hstep
          obtain ⟨ma, hma, hs⟩ := hm.thread t id c _ hc hp
          obtain rfl := hs.ret hm.rel
          have hca : pa.view.calls t = some (id, c) := by rw [hm.calls, hc]
          exact ⟨_, hpa.step (.ret t) trivial (Sys.step_ret_eq hca hma), hm.ret v⟩

end Implements

end Interleave
