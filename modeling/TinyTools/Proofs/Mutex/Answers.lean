/-
What the calls on a Linux mutex return.

A call that has returned has performed a path of its function, and the value it returned
is the one at the end of that path.  Where pthreads do not fail the mutex is found
initialised and nothing is refused, so one path of lock and of unlock is left, and the
paths of trylock and is_locked differ by the answer of `pthread_mutex_trylock` alone.

From these paths it also follows by whom the mutex is held while no query has it: by a
lock or a trylock that has not returned yet, or has returned `TT_SUCCESS`.
-/
import TinyTools.Proofs.Mutex.Query

namespace TinyTools

open Interleave

namespace MutexQuery

variable {τ : Type}

/-- Some thread holds the mutex, through a lock or a trylock that has returned `TT_SUCCESS` or
has not returned yet, and it has not been unlocked since. -/
def Held (tr : List (QueryEvent τ)) : Prop :=
  ∃ id t c, owner tr = some (id, t) ∧ .call id t c ∈ tr ∧
    (c = .lock (some ()) ∨ c = .trylock (some ())) ∧ ∀ x, .ret id t c x ∈ tr → x = .err .success

/-- What each call returned is what its own step on the object at `p` answered. -/
structure Told (p : Option Addr) (tr : List (QueryEvent τ)) : Prop where
  lock : ∀ id t x, .ret id t (.lock (some ())) x ∈ tr →
    x = .err .success ∧ .prim id t (.pthreadMutexLock p) true ∈ tr
  unlock : ∀ id t x, .ret id t (.unlock (some ())) x ∈ tr →
    x = .err .success ∧ .prim id t (.pthreadMutexUnlock p) true ∈ tr
  trylock : ∀ id t x, .ret id t (.trylock (some ())) x ∈ tr →
    ∃ r, .prim id t (.pthreadMutexTrylock p) r ∈ tr ∧ x = .err (if r then .success else .busy)
  /-- A query gives back what it has taken. -/
  isLocked : ∀ id t x, .ret id t (.isLocked (some ())) x ∈ tr →
    ∃ r, .prim id t (.pthreadMutexTrylock p) r ∈ tr ∧ x = .bool (!r) ∧
      (r = true → .prim id t (.pthreadMutexUnlock p) true ∈ tr)

/-- Who is told that the mutex is taken is told so while somebody holds it. -/
structure Honest (tr : List (QueryEvent τ)) : Prop where
  trylock : ∀ id t, .ret id t (.trylock (some ())) (.err .busy) ∈ tr →
    At tr fun tr₁ e => (∃ p, e = .prim id t (.pthreadMutexTrylock p) false) ∧ Held tr₁
  isLocked : ∀ id t, .ret id t (.isLocked (some ())) (.bool true) ∈ tr →
    At tr fun tr₁ e => (∃ p, e = .prim id t (.pthreadMutexTrylock p) false) ∧ Held tr₁
  /-- The calls that are yet to return are included. -/
  tried : Always tr fun tr₁ e => Tried e false → Held tr₁

/-! ### The paths of the functions -/

/-- What the primitives answer on the mutex whose object is at `a`. -/
def Steady (a : Addr) : (p : LinuxMutexOp Unit) → p.Res → Prop
  | .readInitialized _, r => r = true
  | .readLock _, r => r = some a
  | .pthreadMutexLock _, r | .pthreadMutexUnlock _, r => r = true
  | _, _ => True

section Paths

variable {a : Addr} {es : List (linuxMutexSig Unit).Done}

/-- Lock, unlock and trylock come to their call on the object. -/
theorem yields_on {call : Option Addr → Prog (linuxMutexSig Unit) Bool} {failed e : TtError}
    (h : (ttPlatformMutexOn call failed (some ())).Yields e es)
    (hsteady : ∀ d ∈ es, Steady a d.1 d.2) :
    ∃ ok es', es = ⟨.readInitialized (), true⟩ :: ⟨.readLock (), some a⟩ :: es' ∧
      (call (some a)).Yields ok es' ∧ e = if ok then .success else failed := by
  obtain ⟨initialized, es', rfl, h⟩ := h
  obtain rfl : initialized = true := hsteady _ List.mem_cons_self
  obtain ⟨lock, es', rfl, h⟩ := h
  obtain rfl : lock = some a := hsteady _ (List.mem_cons_of_mem _ List.mem_cons_self)
  obtain ⟨ok, es₁, es₂, rfl, hcall, rfl, he⟩ := Prog.yields_bind_iff.mp h
  exact ⟨ok, es₁, by rw [List.append_nil], hcall, he.symm⟩

/-- A call of which only the result is kept. -/
theorem yields_val {β : Type} {m : Prog (linuxMutexSig Unit) β} {val : β → TtVal} {x : TtVal}
    (h : (m >>= fun b => .ret (val b)).Yields x es) : ∃ b, m.Yields b es ∧ x = val b := by
  obtain ⟨b, es₁, es₂, rfl, hm, rfl, hx⟩ := Prog.yields_bind_iff.mp h
  exact ⟨b, by rwa [List.append_nil], hx.symm⟩

variable {x : TtVal}

theorem yields_lock (h : ((steadySys τ).body (.lock (some ()))).Yields x es)
    (hsteady : ∀ d ∈ es, Steady a d.1 d.2) :
    x = .err .success ∧ es = [⟨.readInitialized (), true⟩, ⟨.readLock (), some a⟩,
      ⟨.pthreadMutexLock (some a), true⟩] := by
  obtain ⟨e, hbody, rfl⟩ := yields_val h
  obtain ⟨ok, es', rfl, ⟨r, es'', rfl, rfl, rfl⟩, rfl⟩ := yields_on hbody hsteady
  obtain rfl : r = true := hsteady ⟨.pthreadMutexLock (some a), r⟩ (by simp)
  exact ⟨rfl, rfl⟩

theorem yields_unlock (h : ((steadySys τ).body (.unlock (some ()))).Yields x es)
    (hsteady : ∀ d ∈ es, Steady a d.1 d.2) :
    x = .err .success ∧ es = [⟨.readInitialized (), true⟩, ⟨.readLock (), some a⟩,
      ⟨.pthreadMutexUnlock (some a), true⟩] := by
  obtain ⟨e, hbody, rfl⟩ := yields_val h
  obtain ⟨ok, es', rfl, ⟨r, es'', rfl, rfl, rfl⟩, rfl⟩ := yields_on hbody hsteady
  obtain rfl : r = true := hsteady ⟨.pthreadMutexUnlock (some a), r⟩ (by simp)
  exact ⟨rfl, rfl⟩

theorem yields_trylock (h : ((steadySys τ).body (.trylock (some ()))).Yields x es)
    (hsteady : ∀ d ∈ es, Steady a d.1 d.2) :
    ∃ r : Bool, x = .err (if r then .success else .busy) ∧
      es = [⟨.readInitialized (), true⟩, ⟨.readLock (), some a⟩,
        ⟨.pthreadMutexTrylock (some a), r⟩] := by
  obtain ⟨e, hbody, rfl⟩ := yields_val h
  obtain ⟨ok, es', rfl, ⟨r, es'', rfl, rfl, rfl⟩, rfl⟩ := yields_on hbody hsteady
  exact ⟨r, rfl, rfl⟩

theorem yields_isLocked (h : ((steadySys τ).body (.isLocked (some ()))).Yields x es)
    (hsteady : ∀ d ∈ es, Steady a d.1 d.2) :
    ∃ r : Bool, x = .bool (!r) ∧ ⟨.pthreadMutexTrylock (some a), r⟩ ∈ es ∧
      (r = true → ⟨.pthreadMutexUnlock (some a), true⟩ ∈ es) := by
  obtain ⟨b, ⟨initialized, es₁, rfl, h₁⟩, rfl⟩ := yields_val h
  obtain rfl : initialized = true := hsteady _ List.mem_cons_self
  obtain ⟨lock, es₂, rfl, h₂⟩ := h₁
  obtain rfl : lock = some a := hsteady _ (List.mem_cons_of_mem _ List.mem_cons_self)
  obtain ⟨taken, es₃, rfl, h₃⟩ := h₂
  cases taken with
  | false =>
      obtain ⟨rfl, rfl⟩ := h₃
      exact ⟨false, rfl, by simp, nofun⟩
  | true =>
      obtain ⟨r, es₄, rfl, rfl, rfl⟩ := h₃
      obtain rfl : r = true := hsteady ⟨.pthreadMutexUnlock (some a), r⟩ (by simp)
      exact ⟨true, rfl, by simp, fun _ => by simp⟩

end Paths

/-! ### Runs -/

section Runs

variable [DecidableEq τ] {a : Addr} {s₀ : LinuxMutexes Unit τ} {pl : QueryPool τ}

/-- Every step is answered as on an initialised mutex that nobody destroys. -/
theorem steady_of_reach (hs : s₀.mutex () = ⟨some a, true⟩)
    (hready : s₀.object a = some (.ready none)) (h : (steadySys τ).Reach Client s₀ pl) :
    ∀ id t p r, .prim id t p r ∈ pl.view.trace → Steady a p r := by
  refine Sys.Reach.answer_mem ?_ h
  intro pl t id c p k x r s hreach hc hp hexec
  obtain ⟨G, hinv, -⟩ := reach_inv hs hready hreach
  have hinner : Inner a pl.view t p :=
    (outline a τ).sound_pre (inv_start hs hready) safe_call hreach (fun hstop => hstop) hc hp
  rcases hinner with rfl | rfl | rfl | rfl | ⟨rfl, -⟩
  · cases hexec
    exact congrArg TtMutex.initialized hinv.mutex
  · cases hexec
    exact congrArg TtMutex.lock hinv.mutex
  · exact (steady_lock hinv.ready hexec).2.1
  · trivial
  · exact (steady_unlock (t := t) hinv.ready hexec).1

/-- A returned call has taken a path of its function, in its own thread. -/
theorem path_of_ret (hs : s₀.mutex () = ⟨some a, true⟩)
    (hready : s₀.object a = some (.ready none)) (h : (steadySys τ).Reach Client s₀ pl)
    {id : Nat} {t : τ} {c : MutexCall Unit} {x : TtVal} (hx : .ret id t c x ∈ pl.view.trace) :
    ((steadySys τ).body c).Yields x (prims pl.view.trace id) ∧
      (∀ d ∈ prims pl.view.trace id, Steady a d.1 d.2) ∧
      ∀ d ∈ prims pl.view.trace id, .prim id t d.1 d.2 ∈ pl.view.trace := by
  have hcall := h.books.ret_called id t c x hx
  have hown : ∀ d ∈ prims pl.view.trace id, .prim id t d.1 d.2 ∈ pl.view.trace :=
    fun d hd => h.prim_own hcall hd
  exact ⟨h.yields (fun _ _ => rfl) hx,
    fun d hd => steady_of_reach hs hready h id t d.1 d.2 (hown d hd), hown⟩

/-- **What each call returns is what its own step was answered.** -/
theorem told_of_reach (hs : s₀.mutex () = ⟨some a, true⟩)
    (hready : s₀.object a = some (.ready none)) (h : (steadySys τ).Reach Client s₀ pl) :
    Told (some a) pl.view.trace := by
  refine ⟨?_, ?_, ?_, ?_⟩
  · intro id t x hx
    obtain ⟨hyields, hsteady, hown⟩ := path_of_ret hs hready h hx
    obtain ⟨hx, hes⟩ := yields_lock hyields hsteady
    exact ⟨hx, hown ⟨.pthreadMutexLock (some a), true⟩ (by simp [hes])⟩
  · intro id t x hx
    obtain ⟨hyields, hsteady, hown⟩ := path_of_ret hs hready h hx
    obtain ⟨hx, hes⟩ := yields_unlock hyields hsteady
    exact ⟨hx, hown ⟨.pthreadMutexUnlock (some a), true⟩ (by simp [hes])⟩
  · intro id t x hx
    obtain ⟨hyields, hsteady, hown⟩ := path_of_ret hs hready h hx
    obtain ⟨r, hx, hes⟩ := yields_trylock hyields hsteady
    exact ⟨r, hown ⟨.pthreadMutexTrylock (some a), r⟩ (by simp [hes]), hx⟩
  · intro id t x hx
    obtain ⟨hyields, hsteady, hown⟩ := path_of_ret hs hready h hx
    obtain ⟨r, hx, htry, hunlock⟩ := yields_isLocked hyields hsteady
    exact ⟨r, hown _ htry, hx, fun hr => hown _ (hunlock hr)⟩

/-! ### Who holds the mutex -/

omit [DecidableEq τ] in
theorem owner_mem {tr : List (QueryEvent τ)} {id : Nat} {t : τ} (ho : owner tr = some (id, t)) :
    ∃ p, .prim id t (.pthreadMutexLock p) true ∈ tr ∨
      .prim id t (.pthreadMutexTrylock p) true ∈ tr := by
  induction tr using List.reverseRecOn with
  | nil => cases ho
  | append_singleton tr e ih =>
      rw [owner_snoc] at ho
      split at ho
      · cases ho
        exact ⟨_, Or.inl (List.mem_append_right _ (List.mem_singleton_self _))⟩
      · cases ho
        exact ⟨_, Or.inr (List.mem_append_right _ (List.mem_singleton_self _))⟩
      · cases ho
      · obtain ⟨p, hp⟩ := ih ho
        exact ⟨p, hp.imp (List.mem_append_left _) (List.mem_append_left _)⟩

omit [DecidableEq τ] in
theorem Held.taken {tr : List (QueryEvent τ)} (h : Held tr) : Taken tr := by
  obtain ⟨id, t, c, ho, hc, hkind, -⟩ := h
  refine ⟨id, t, c, ho, hc, ?_⟩
  rcases hkind with rfl | rfl
  · rfl
  · rfl

/-- The primitives that take the mutex. -/
def takes : LinuxMutexOp Unit → Bool
  | .pthreadMutexLock _ | .pthreadMutexTrylock _ => true
  | _ => false

theorem every_unlock (m : Option Unit) :
    (ttPlatformMutexUnlock m).Every fun p => takes p = false := by
  cases m with
  | none => trivial
  | some m =>
      refine ⟨rfl, fun initialized => ?_⟩
      cases initialized with
      | false => trivial
      | true => exact ⟨rfl, fun lock => ⟨rfl, fun _ => trivial⟩⟩

/-- An unlock does not take the mutex. -/
theorem unlock_not_takes (h : (steadySys τ).Reach Client s₀ pl) {id : Nat} {t : τ}
    {m : Option Unit} (hc : .call id t (.unlock m) ∈ pl.view.trace) {p : LinuxMutexOp Unit}
    {r : p.Res} (hp : .prim id t p r ∈ pl.view.trace) : takes p = false := by
  have hbody : ∀ c, ((steadySys τ).body c).Every fun q => c = .unlock m → takes q = false := by
    intro c
    by_cases hcm : c = .unlock m
    · subst hcm
      exact Prog.Every.bind (Prog.Every.mono (fun q hq _ => hq) (every_unlock m)) fun _ => trivial
    · exact Prog.every_of_forall (fun q hq => absurd hq hcm) _
  obtain ⟨c, hc', hP⟩ := h.prim_mem hbody id t p r hp
  exact hP (h.books.once id t t c _ hc' hc).2

omit [DecidableEq τ] in
theorem client_cases {v : QueryView τ} {t : τ} {c : MutexCall Unit} (hok : Client v t c) :
    c = .lock (some ()) ∨ c = .unlock (some ()) ∨ c = .trylock (some ()) ∨
      c = .isLocked (some ()) := by
  rcases c with (_ | m) | (_ | m) | (_ | m) | (_ | m) | (_ | m) | (_ | m)
  all_goals first
    | exact hok.elim
    | simp

/-- **The mutex is held through a lock or a trylock**, unless a query has taken it. -/
theorem held_of_taken (hs : s₀.mutex () = ⟨some a, true⟩)
    (hready : s₀.object a = some (.ready none)) (h : (steadySys τ).Reach Client s₀ pl)
    (htaken : Taken pl.view.trace) : Held pl.view.trace := by
  obtain ⟨id, t, c, ho, hc, hq⟩ := htaken
  have htold := told_of_reach hs hready h
  obtain ⟨p, htake⟩ := owner_mem ho
  refine ⟨id, t, c, ho, hc, ?_⟩
  have hclient := h.call_mem (fun _ _ _ hok => client_cases hok) id t c hc
  rcases hclient with rfl | rfl | rfl | rfl
  · exact ⟨Or.inl rfl, fun x hx => (htold.lock id t x hx).1⟩
  · rcases htake with hp | hp
    · cases unlock_not_takes h hc hp
    · cases unlock_not_takes h hc hp
  · refine ⟨Or.inr rfl, fun x hx => ?_⟩
    obtain ⟨hyields, hsteady, -⟩ := path_of_ret hs hready h hx
    obtain ⟨r, rfl, hes⟩ := yields_trylock hyields hsteady
    rcases htake with hp | hp
    · have hmem := mem_prims hp
      simp [hes] at hmem
    · obtain ⟨-, hr⟩ : p = some a ∧ r = true := by simpa [hes, eq_comm] using mem_prims hp
      rw [hr]
      rfl
  · cases hq

omit [DecidableEq τ] in
/-- What was so whenever somebody found the mutex taken was so at this try. -/
theorem at_of_tried {id : Nat} {t : τ} {P : List (QueryEvent τ) → Prop} {q : Option Addr}
    {tr : List (QueryEvent τ)} (hall : Always tr fun tr₁ e => Tried e false → P tr₁)
    (hp : .prim id t (.pthreadMutexTrylock q) false ∈ tr) :
    At tr fun tr₁ e => (∃ p, e = .prim id t (.pthreadMutexTrylock p) false) ∧ P tr₁ := by
  obtain ⟨tr₁, tr₂, htr⟩ := List.append_of_mem hp
  exact ⟨tr₁, _, tr₂, htr, ⟨q, rfl⟩, hall tr₁ _ tr₂ htr ⟨id, t, q, rfl⟩⟩

/-- **The answers are right if and only if nobody was told of a query.** -/
theorem honest_iff (hs : s₀.mutex () = ⟨some a, true⟩)
    (hready : s₀.object a = some (.ready none)) (h : (steadySys τ).Reach Client s₀ pl) :
    Honest pl.view.trace ↔ ¬ Disturbed pl.view.trace := by
  obtain ⟨G, hinv, -⟩ := reach_inv hs hready h
  rw [← hinv.taken_iff h.books]
  refine ⟨?_, ?_⟩
  · intro hhonest tr₁ e tr₂ htr he
    exact (hhonest.tried tr₁ e tr₂ htr he).taken
  · intro htaken
    have htried : Always pl.view.trace fun tr₁ e => Tried e false → Held tr₁ := by
      intro tr₁ e tr₂ htr he
      -- the run was at `tr₁` before this try
      obtain ⟨pl₁, hreach₁, rfl⟩ := h.upto htr
      exact held_of_taken hs hready hreach₁ (htaken _ e tr₂ htr he)
    have htold := told_of_reach hs hready h
    refine ⟨?_, ?_, htried⟩
    · intro id t hx
      obtain ⟨r, hp, hr⟩ := htold.trylock id t _ hx
      cases r with
      | false => exact at_of_tried htried hp
      | true => cases hr
    · intro id t hx
      obtain ⟨r, hp, hr, -⟩ := htold.isLocked id t _ hx
      cases r with
      | false => exact at_of_tried htried hp
      | true => cases hr

end Runs

end MutexQuery

end TinyTools
