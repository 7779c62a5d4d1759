/-
Initialising the thread subsystem again.

`tt_thread_init` does not ask whether the table is already there: it allocates another
object for `g_thread_table_mutex`, makes the mutex point to it and clears the table.
The object the mutex had before is still initialised, and no function destroys it; so
every `tt_thread_init` that succeeds adds one live object to those there are, whatever
the other threads are doing at the time.

The invariant follows the objects from the `pthread_mutex_init` of a call on.  An object
that has been initialised stays so, because locking and unlocking keep it initialised
and the only object ever freed is one whose initialisation has just failed.
-/
import TinyTools.Proofs.Thread.Guarded

namespace TinyTools

open Interleave

namespace Reinit

open Guarded

variable {N : Nat} {H τ : Type}

/-! ### What is to be shown -/

/-- There is an initialised mutex object at `a`. -/
def Live (s : Shared N H τ) (a : Addr) : Prop := ∃ h, s.2.object a = some (.ready h)

/-- What the initialisation would have to leave as it should be: the registered threads that
nobody has begun to destroy, one object for the mutex, and one thread among the slots. -/
structure Unharmed
    (before after : Pool (threadLinuxSig N H) τ (Shared N H τ) (ThreadCall H) TableVal) : Prop where
  registered : ∀ a, Thread.InTable before.view.shared.1 a →
    (∀ id t, .call id t (.destroy (some a)) ∉ after.view.trace) →
    Thread.InTable after.view.shared.1 a
  one : ∃! a, Live after.view.shared a
  excludes : ∀ t u, Within after t → Within after u → t = u

/-! ### The invariant -/

/-- `pthread_mutex_init` has succeeded on `a` in call `id`. -/
def Made (tr : List (GuardEvent N H τ)) (id : Nat) (a : Addr) : Prop :=
  ∃ t, .prim id t (.inr (.inr (.pthreadMutexInit (some a)))) true ∈ tr

/-- What a thread is doing with an object: nothing, or it has allocated or initialised one. -/
inductive Ghost : Type
  | idle
  | raw (a : Addr)
  | made

def Ghost.owns : Ghost → Option Addr
  | .raw a => some a
  | .idle | .made => none

def Knows (v : GuardView N H τ) (t : τ) : Ghost → Prop
  | .idle => True
  | .raw a => v.shared.2.object a = some .raw
  | .made => ∃ id c a, v.calls t = some (id, c) ∧ Made v.trace id a

structure Inv (v : GuardView N H τ) (G : τ → Ghost) : Prop where
  knows : ∀ t, Knows v t (G t)
  exclusive : Outline.Exclusive Ghost.owns G
  live : ∀ id a, Made v.trace id a → Live v.shared a
  apart : ∀ id id' a, Made v.trace id a → Made v.trace id' a → id = id'
  returned : ∀ id t, .ret id t .init (.err .success) ∈ v.trace → ∃ a, Made v.trace id a

def outline (N : Nat) (H τ : Type) :
    Outline (threadLinuxSig N H) τ (Shared N H τ) (ThreadCall H) TableVal Ghost where
  idle g := g = .idle
  inv := Inv

theorem Made.snoc {tr : List (GuardEvent N H τ)} {id : Nat} {a : Addr} (h : Made tr id a)
    (e : GuardEvent N H τ) : Made (tr ++ [e]) id a := by
  obtain ⟨t, ht⟩ := h
  exact ⟨t, List.mem_append_left _ ht⟩

theorem made_snoc {tr : List (GuardEvent N H τ)} {e : GuardEvent N H τ} {id : Nat} {a : Addr}
    (he : ∀ id t a, e ≠ .prim id t (.inr (.inr (.pthreadMutexInit (some a)))) true) :
    Made (tr ++ [e]) id a ↔ Made tr id a := by
  refine ⟨?_, fun h => h.snoc e⟩
  rintro ⟨t, ht⟩
  rcases List.mem_append.mp ht with hold | hnew
  · exact ⟨t, hold⟩
  · exact absurd (List.mem_singleton.mp hnew).symm (he id t a)

/-- What a step keeps of the objects: those allocated and those initialised stay so. -/
structure Keeps (m m' : LinuxMutexes Unit τ) : Prop where
  raw : ∀ a, m.object a = some .raw → m'.object a = some .raw
  ready : ∀ a h, m.object a = some (.ready h) → ∃ h', m'.object a = some (.ready h')

theorem Keeps.of_object {m m' : LinuxMutexes Unit τ} (h : m'.object = m.object) : Keeps m m' := by
  refine ⟨?_, ?_⟩
  · intro a ha
    rw [h]
    exact ha
  · intro a n ha
    rw [h]
    exact ⟨n, ha⟩

/-- Another holder for an object that is initialised. -/
theorem Keeps.setHolder {m : LinuxMutexes Unit τ} {a : Addr} {h : Option τ}
    (hready : m.object a = some (.ready h)) (h' : Option τ) :
    Keeps m (m.setObject a (some (.ready h'))) := by
  refine ⟨?_, ?_⟩
  · intro b hb
    have hne : b ≠ a := by
      rintro rfl
      rw [hready] at hb
      cases hb
    simpa [hne] using hb
  · intro b n hb
    by_cases hne : b = a
    · subst hne
      exact ⟨h', by simp⟩
    · exact ⟨n, by simpa [hne] using hb⟩

/-- Operations that neither make nor destroy an object. -/
def Harmless : (threadLinuxSig N H).Op → Prop
  | .inr (.inr p) =>
      match p with
      | .malloc | .free _ | .pthreadMutexInit _ | .pthreadMutexDestroy _ => False
      | _ => True
  | _ => True

section Steps

variable [DecidableEq H] [DecidableEq τ] {t : τ} {id : Nat} {c : ThreadCall H} {β : Type}
  {Q : β → Ghost → Prop} {x : ThreadChoice H × LinuxChoice} {s s' : Shared N H τ}

omit [DecidableEq τ] in
theorem exec_mutex {p : LinuxMutexOp Unit} {r : p.Res}
    (h : (threadLinuxSys N H τ).exec x t (.inr (.inr p)) s = some (r, s')) :
    ∃ m, linuxMutexExec x.2 t p s.2 = some (r, m) ∧ s' = (s.1, m) := by
  obtain ⟨⟨r', m⟩, hexec, heq⟩ := Option.map_eq_some_iff.mp h
  cases heq
  exact ⟨m, hexec, rfl⟩

omit [DecidableEq τ] in
theorem keeps_of_harmless {p : (threadLinuxSig N H).Op} {r : (threadLinuxSig N H).Res p}
    (hp : Harmless p) (h : (threadLinuxSys N H τ).exec x t p s = some (r, s')) :
    Keeps s.2 s'.2 := by
  rcases p with p | p | p
  · obtain ⟨⟨r', m⟩, -, heq⟩ := Option.map_eq_some_iff.mp h
    cases heq
    exact .of_object rfl
  · obtain ⟨⟨r', m⟩, -, heq⟩ := Option.map_eq_some_iff.mp h
    cases heq
    exact .of_object rfl
  · obtain ⟨m, hm, rfl⟩ := exec_mutex h
    cases p with
    | malloc | free q | pthreadMutexInit q | pthreadMutexDestroy q => exact hp.elim
    | readLock m | readInitialized m | writeLock m lock | writeInitialized m b =>
        cases hm
        exact .of_object rfl
    | pthreadMutexLock q | pthreadMutexUnlock q | pthreadMutexTrylock q =>
        cases q with
        | none => cases hm
        | some a =>
            simp only [linuxMutexExec] at hm
            split at hm <;> cases hm
            all_goals first | exact .of_object rfl | exact Keeps.setHolder (by assumption) _

namespace Inv

variable {v : GuardView N H τ} {G : τ → Ghost}

omit [DecidableEq H] [DecidableEq τ] in
/-- A step that keeps the objects and initialises none. -/
theorem keep (h : Inv v G) {p : (threadLinuxSig N H).Op} {r : (threadLinuxSig N H).Res p}
    {s : Shared N H τ} (hkeeps : Keeps v.shared.2 s.2)
    (hmade : ∀ id t a, (.prim id t p r : GuardEvent N H τ) ≠
      .prim id t (.inr (.inr (.pthreadMutexInit (some a)))) true) :
    Inv (v.prim id t p r s) G := by
  have hiff : ∀ id' a, Made (v.prim id t p r s).trace id' a ↔ Made v.trace id' a := by
    intro id' a
    refine made_snoc fun id₁ t₁ a₁ heq => hmade id t a₁ ?_
    cases heq
    rfl
  refine ⟨?_, h.exclusive, ?_, ?_, ?_⟩
  · intro u
    have hold := h.knows u
    cases hg : G u with
    | idle => trivial
    | raw a =>
        rw [hg] at hold
        exact hkeeps.raw a hold
    | made =>
        rw [hg] at hold
        obtain ⟨id', c', a, hc', ha⟩ := hold
        exact ⟨id', c', a, hc', (hiff id' a).mpr ha⟩
  · intro id' a ha
    obtain ⟨holder, hready⟩ := h.live id' a ((hiff id' a).mp ha)
    exact hkeeps.ready a holder hready
  · intro id₁ id₂ a h₁ h₂
    exact h.apart id₁ id₂ a ((hiff id₁ a).mp h₁) ((hiff id₂ a).mp h₂)
  · intro id' u hret
    obtain ⟨a, ha⟩ := h.returned id' u (by simpa using hret)
    exact ⟨a, (hiff id' a).mpr ha⟩

omit [DecidableEq H] in
/-- A step of `t` on an object that is not initialised before and that only `t` knows of. -/
theorem onObject (h : Inv v G) {p : (threadLinuxSig N H).Op} {r : (threadLinuxSig N H).Res p}
    {s : Shared N H τ} {a : Addr} {o : Option (LinuxMutex τ)} {g : Ghost}
    (hs : s.2 = v.shared.2.setObject a o) (hraw : ¬ Live v.shared a)
    (hmine : ∀ u, u ≠ t → (G u).owns ≠ some a) (hafter : ∀ b, g.owns = some b → b = a)
    (hknows : Knows (v.prim id t p r s) t g)
    (hmade : ∀ id' b, Made (v.prim id t p r s).trace id' b → Made v.trace id' b ∨
      id' = id ∧ b = a ∧ o = some (.ready none)) :
    Inv (v.prim id t p r s) (Function.update G t g) := by
  have hobject : ∀ b, b ≠ a → s.2.object b = v.shared.2.object b := by
    intro b hb
    rw [hs]
    exact Function.update_of_ne hb ..
  have hold : ∀ {id' b}, Made v.trace id' b → b ≠ a := by
    rintro id' b hb rfl
    exact hraw (h.live id' b hb)
  refine ⟨?_, h.exclusive.update hmine hafter, ?_, ?_, ?_⟩
  · refine (Function.forall_update_iff _ _).mpr ⟨hknows, fun u hu => ?_⟩
    have hk := h.knows u
    cases hg : G u with
    | idle => trivial
    | raw b =>
        rw [hg] at hk
        have hb : b ≠ a := by
          rintro rfl
          exact hmine u hu (by rw [hg]; rfl)
        exact (hobject b hb).trans hk
    | made =>
        rw [hg] at hk
        obtain ⟨id', c', b, hc', hb⟩ := hk
        exact ⟨id', c', b, hc', hb.snoc _⟩
  · intro id' b hb
    rcases hmade id' b hb with hb' | ⟨-, rfl, rfl⟩
    · obtain ⟨holder, hready⟩ := h.live id' b hb'
      exact ⟨holder, (hobject b (hold hb')).trans hready⟩
    · refine ⟨none, ?_⟩
      rw [View.prim_shared, hs]
      exact Function.update_self ..
  · intro id₁ id₂ b h₁ h₂
    rcases hmade id₁ b h₁ with h₁' | ⟨rfl, hb, -⟩
    · rcases hmade id₂ b h₂ with h₂' | ⟨-, hb, -⟩
      · exact h.apart id₁ id₂ b h₁' h₂'
      · exact absurd hb (hold h₁')
    · rcases hmade id₂ b h₂ with h₂' | ⟨rfl, -, -⟩
      · exact absurd hb (hold h₂')
      · rfl
  · intro id' u hret
    obtain ⟨b, hb⟩ := h.returned id' u (by simpa using hret)
    exact ⟨b, hb.snoc _⟩

end Inv

/-! ### The functions -/

/-- The program `m`, in call `c`. -/
abbrev Safe (t : τ) (id : Nat) (c : ThreadCall H) (m : Prog (threadLinuxSig N H) β)
    (Q : β → Ghost → Prop) (g : Ghost) : Prop :=
  (outline N H τ).Wp (threadLinuxSys N H τ).toMachine t id c m Q g

theorem safe_step {p : (threadLinuxSig N H).Op} {k : (threadLinuxSig N H).Res p → Prog _ β}
    {g : Ghost} (hp : Harmless p) (hk : ∀ r, Safe t id c (k r) Q g) :
    Safe t id c (.step p k) Q g := by
  refine Outline.Wp.step (fun _ _ => rfl) ?_
  intro v G _ hinv hgt _
  refine ⟨trivial, ?_⟩
  intro x r s hexec _
  refine ⟨g, ?_, hk r⟩
  rw [← hgt, Function.update_eq_self]
  refine hinv.keep (keeps_of_harmless hp hexec) ?_
  intro id' u a heq
  cases heq
  exact hp

/-- A program that neither makes nor destroys an object. -/
theorem safe_harmless {m : Prog (threadLinuxSig N H) β} (hm : m.Every Harmless) {g : Ghost}
    (hQ : ∀ a, Q a g) : Safe t id c m Q g := by
  induction m with
  | ret a => exact hQ a
  | step p k ih => exact safe_step hm.1 fun r => ih r (hm.2 r)

/-- An object that was allocated and not initialised: it is initialised, or freed again. -/
theorem safe_made {Q : TtError → Ghost → Prop} {a : Addr} (hfailed : Q .mutexInit .idle)
    (hdone : Q .success .made) :
    Safe (N := N) t id c (.step (.pthreadMutexInit (some a)) fun (ok : Bool) =>
      if !ok then .step (.free (some a)) fun _ => .ret .mutexInit else
      .step (.writeLock () (some a)) fun _ =>
      .step (.writeInitialized () true) fun _ =>
      .ret .success : Prog (linuxMutexSig Unit) TtError).inr.inr Q (.raw a) := by
  have hnotLive : ∀ {s : Shared N H τ}, s.2.object a = some .raw → ¬ Live s a := by
    rintro s hraw ⟨holder, hready⟩
    rw [hraw] at hready
    cases hready
  have hothers : ∀ {v : GuardView N H τ} {G : τ → Ghost}, Inv v G → G t = .raw a →
      ∀ u, u ≠ t → (G u).owns ≠ some a :=
    fun hinv hgt => hinv.exclusive.others (by rw [hgt]; rfl)
  refine Outline.Wp.step (fun _ _ => rfl) ?_
  intro v G _ hinv hgt hcall
  have hraw : v.shared.2.object a = some .raw := Outline.at_ghost hinv.knows hgt
  refine ⟨trivial, ?_⟩
  intro x ok s hexec _
  obtain ⟨m, hm, rfl⟩ := exec_mutex hexec
  rcases linuxMutexExec_init hraw hm with ⟨rfl, rfl⟩ | ⟨rfl, rfl⟩
  · refine ⟨.made, hinv.onObject rfl (hnotLive hraw) (hothers hinv hgt) nofun ?_ ?_, ?_⟩
    · exact ⟨id, c, a, hcall, t, List.mem_append_right _ (.head _)⟩
    · rintro id' b ⟨u, hu⟩
      rcases List.mem_append.mp hu with hold | hnew
      · exact Or.inl ⟨u, hold⟩
      · cases List.mem_singleton.mp hnew
        exact Or.inr ⟨rfl, rfl, rfl⟩
    · exact safe_step trivial fun _ => safe_step trivial fun _ => hdone
  · refine ⟨.raw a, ?_, ?_⟩
    · rw [← hgt, Function.update_eq_self]
      exact hinv.keep (.of_object rfl) nofun
    · -- the object is still the caller's own when it is freed
      refine Outline.Wp.step (fun _ _ => rfl) ?_
      intro v G _ hinv hgt _
      have hraw : v.shared.2.object a = some .raw := Outline.at_ghost hinv.knows hgt
      refine ⟨trivial, ?_⟩
      intro x r s hexec _
      obtain ⟨m, hm, rfl⟩ := exec_mutex hexec
      have hfreed : m = v.shared.2.setObject a none := linuxMutexExec_free hraw hm
      refine ⟨.idle, hinv.onObject hfreed (hnotLive hraw) (hothers hinv hgt) nofun trivial ?_,
        hfailed⟩
      intro id' b hb
      exact Or.inl ((made_snoc nofun).mp hb)

/-- `tt_mutex_init`: where it succeeds, it has initialised an object. -/
theorem safe_mutexInit {Q : TtError → Ghost → Prop} (hfailed : ∀ e, e ≠ .success → Q e .idle)
    (hdone : Q .success .made) :
    Safe t id c ((linuxMutex (.init (some ()))).inr.inr : Prog (threadLinuxSig N H) TtError) Q
      .idle := by
  refine Outline.Wp.step (fun _ _ => rfl) ?_
  intro v G _ hinv hgt _
  refine ⟨trivial, ?_⟩
  intro x linuxMutex s hexec _
  obtain ⟨m, hm, rfl⟩ := exec_mutex hexec
  rcases linuxMutexExec_malloc hm with ⟨a, hnone, rfl, rfl⟩ | ⟨rfl, rfl⟩
  · refine ⟨.raw a, hinv.onObject rfl ?_ ?_ ?_ (Function.update_self ..) ?_,
      safe_made (hfailed _ nofun) hdone⟩
    · rintro ⟨holder, hready⟩
      rw [hnone] at hready
      cases hready
    · intro u _ hu
      have hk := hinv.knows u
      cases hg : G u with
      | raw b =>
          rw [hg] at hk hu
          cases hu
          rw [show v.shared.2.object a = some .raw from hk] at hnone
          cases hnone
      | idle | made =>
          rw [hg] at hu
          cases hu
    · rintro b hb
      cases hb
      rfl
    · intro id' b hb
      exact Or.inl ((made_snoc nofun).mp hb)
  · refine ⟨.idle, ?_, hfailed _ nofun⟩
    rw [← hgt, Function.update_eq_self]
    exact hinv.keep (.of_object rfl) nofun

end Steps

/-- Of the mutex functions, only lock and unlock. -/
def LocksOnly : (tableSig N (Option H)).Op → Prop
  | .inr p => p = .lock (some ()) ∨ p = .unlock (some ())
  | .inl _ => True

theorem every_clearSlots (slots : List (Fin N)) :
    (clearSlots (H := Option H) slots).Every LocksOnly := by
  induction slots with
  | nil => trivial
  | cons i slots ih => exact ⟨trivial, fun _ => ⟨trivial, fun _ => ih⟩⟩

theorem every_scan {α : Type} {body : Fin N → Prog (tableSig N (Option H)) (Option α)}
    (hbody : ∀ i, (body i).Every LocksOnly) (slots : List (Fin N)) :
    (scan body slots).Every LocksOnly := by
  induction slots with
  | nil => trivial
  | cons i slots ih =>
      refine (hbody i).bind fun found => ?_
      cases found with
      | none => exact ih
      | some a => trivial

/-- The whole of a function: one pass over the slots under the mutex. -/
theorem every_section {α β : Type} {inside : Prog (tableSig N (Option H)) α}
    (hinside : inside.Every LocksOnly) (result : α → β) :
    (Prog.step (S := tableSig N (Option H)) (.inr (.lock (some ()))) fun _ => inside >>= fun a =>
      .step (.inr (.unlock (some ()))) fun _ => .ret (result a)).Every LocksOnly :=
  ⟨Or.inl rfl, fun _ => hinside.bind fun _ => ⟨Or.inr rfl, fun _ => trivial⟩⟩

theorem every_registerSlot (a : Addr) (i : Fin N) :
    (registerSlot (H := Option H) a i).Every LocksOnly := by
  refine ⟨trivial, fun inUse => Prog.every_ite ?_ trivial⟩
  exact ⟨trivial, fun _ => ⟨trivial, fun _ => trivial⟩⟩

theorem every_unregisterSlot (a : Addr) (i : Fin N) :
    (unregisterSlot (H := Option H) a i).Every LocksOnly := by
  refine ⟨trivial, fun inUse => Prog.every_ite ⟨trivial, fun thread => ?_⟩ trivial⟩
  exact Prog.every_ite ⟨trivial, fun _ => ⟨trivial, fun _ => trivial⟩⟩ trivial

theorem every_findSlot [DecidableEq H] (handle : Option H) (i : Fin N) :
    (findSlot handle i).Every LocksOnly := by
  refine ⟨trivial, fun inUse => Prog.every_ite ⟨trivial, fun thread => ⟨trivial, ?_⟩⟩ trivial⟩
  intro h
  exact Prog.every_ite ⟨trivial, fun _ => trivial⟩ trivial

theorem every_tableFunction [DecidableEq H] {p : TableCall (Option H)} (hp : p ≠ .init) :
    (tableFunction (N := N) p).Every LocksOnly := by
  cases p with
  | init => exact absurd rfl hp
  | cleanup => exact every_section (every_clearSlots _) _
  | register thread =>
      cases thread with
      | none => trivial
      | some a => exact every_section (every_scan (every_registerSlot a) _) _
  | unregister thread =>
      cases thread with
      | none => trivial
      | some a => exact every_section (every_scan (every_unregisterSlot a) _) _
  | findByHandle handle => exact every_section (every_scan (every_findSlot handle) _) _

/-- What a program of the table functions comes to, the mutex functions linked in. -/
theorem every_link {β : Type} {m : Prog (tableSig N (Option H)) β} (hm : m.Every LocksOnly) :
    (m.link linuxMutex).Every fun p => Harmless (N := N) (H := H) (.inr p) := by
  refine hm.link (fun _ _ => trivial) ?_
  rintro p (rfl | rfl)
  · refine ⟨trivial, fun initialized => Prog.every_ite trivial ⟨trivial, fun linuxMutex => ?_⟩⟩
    exact ⟨trivial, fun _ => trivial⟩
  · refine ⟨trivial, fun initialized => Prog.every_ite trivial ⟨trivial, fun linuxMutex => ?_⟩⟩
    exact ⟨trivial, fun _ => trivial⟩

section Bodies

variable [DecidableEq H] [DecidableEq τ] {t : τ} {id : Nat} {c : ThreadCall H}

omit [DecidableEq τ] in
/-- A function other than `tt_thread_init` neither makes nor destroys an object. -/
theorem every_body (hc : c ≠ .init) :
    ((threadLinuxSys N H τ).body c).Every (Harmless (N := N)) := by
  refine (ThreadBody.every_body hc).link (fun _ _ => trivial) ?_
  intro p hp
  refine every_link (every_tableFunction ?_)
  intro hinit
  exact hp (congrArg Sum.inr hinit)

omit [DecidableEq H] in
/-- Returning keeps the invariant, where a successful `tt_thread_init` has made an object. -/
theorem final {a : TableVal} {g : Ghost}
    (hmade : c = .init → a = .err .success → g = .made) :
    (outline N H τ).Final t id c a g := by
  intro v G _ hinv hgt hcall _
  have hiff : ∀ id' b, Made (v.ret id t c a).trace id' b ↔ Made v.trace id' b :=
    fun _ _ => made_snoc nofun
  refine ⟨.idle, rfl, ?_, ?_, ?_, ?_, ?_⟩
  · refine (Function.forall_update_iff _ _).mpr ⟨trivial, fun u hu => ?_⟩
    have hk := hinv.knows u
    cases hgu : G u with
    | idle => trivial
    | raw b =>
        rw [hgu] at hk
        exact hk
    | made =>
        rw [hgu] at hk
        obtain ⟨id', c', b, hc', hb⟩ := hk
        refine ⟨id', c', b, ?_, hb.snoc _⟩
        rw [View.ret_calls, Function.update_of_ne hu]
        exact hc'
  · intro u w b hu hw
    have howner : ∀ z, (Function.update G t .idle z).owns = some b → (G z).owns = some b := by
      intro z hz
      by_cases hzt : z = t
      · subst hzt
        rw [Function.update_self] at hz
        cases hz
      · rw [Function.update_of_ne hzt] at hz
        exact hz
    exact hinv.exclusive u w b (howner u hu) (howner w hw)
  · intro id' b hb
    exact hinv.live id' b ((hiff id' b).mp hb)
  · intro id₁ id₂ b h₁ h₂
    exact hinv.apart id₁ id₂ b ((hiff id₁ b).mp h₁) ((hiff id₂ b).mp h₂)
  · intro id' u hret
    rcases List.mem_append.mp hret with hold | hnew
    · obtain ⟨b, hb⟩ := hinv.returned id' u hold
      exact ⟨b, hb.snoc _⟩
    · cases List.mem_singleton.mp hnew
      have hk := hinv.knows t
      rw [hgt, hmade rfl rfl] at hk
      obtain ⟨id', c', b, hc', hb⟩ := hk
      rw [hcall] at hc'
      cases hc'
      exact ⟨b, hb.snoc _⟩

/-- `tt_thread_init`. -/
theorem safe_init : Safe t id .init ((threadLinuxSys N H τ).body .init)
    ((outline N H τ).Final t id .init) .idle := by
  show Safe t id .init
    (((ttThreadTableInit (H := Option H)).link linuxMutex).inr >>= fun e => .ret (TableVal.err e))
    _ _
  refine Outline.Wp.bind ?_
  show Safe t id .init ((linuxMutex (.init (some ()))).inr >>= _).inr _ _
  rw [Prog.inr_bind]
  refine Outline.Wp.bind (safe_mutexInit ?_ ?_)
  · intro e he
    show Safe t id .init ((if e ≠ .success then _ else _ :
      Prog (tableSig N (Option H)) TtError).link linuxMutex).inr _ _
    rw [if_pos he]
    exact final fun _ heq => absurd (TableVal.err.inj heq) he
  · refine safe_harmless (Prog.Every.inr (every_link ?_)) fun _ => final fun _ _ => rfl
    exact every_section (every_clearSlots _) _

end Bodies

/-! ### Runs -/

/-- The clients may call what they like. -/
abbrev Any (_ : GuardView N H τ) (_ : τ) (_ : ThreadCall H) : Prop := True

theorem inv_start : ∃ G, Inv (View.start (.zero, .zero) : GuardView N H τ) G ∧
    ∀ t, (outline N H τ).idle (G t) := by
  refine ⟨fun _ => .idle, ⟨?_, ?_, ?_, ?_, ?_⟩, fun _ => rfl⟩
  · intro t; trivial
  · intro t u a h; cases h
  · rintro id a ⟨t, h⟩; cases h
  · rintro id id' a ⟨t, h⟩; cases h
  · intro id t h; cases h

theorem safe_start [DecidableEq H] [DecidableEq τ] (v : GuardView N H τ) (G : τ → Ghost) (t : τ)
    (c : ThreadCall H) (_ : Books v) (hinv : Inv v G) (hnone : v.calls t = none)
    (hidle : G t = .idle) (_ : Any v t c) (_ : ¬ (outline N H τ).stop (v.call t c).trace) :
    ∃ g, Inv (v.call t c) (Function.update G t g) ∧
      Safe t v.next c ((threadLinuxSys N H τ).body c) ((outline N H τ).Final t v.next c) g := by
  have hiff : ∀ id b, Made (v.call t c).trace id b ↔ Made v.trace id b := fun _ _ => made_snoc nofun
  refine ⟨.idle, ?_, ?_⟩
  · rw [← hidle, Function.update_eq_self]
    refine ⟨?_, hinv.exclusive, ?_, ?_, ?_⟩
    · intro u
      have hk := hinv.knows u
      cases hg : G u with
      | idle => trivial
      | raw a =>
          rw [hg] at hk
          exact hk
      | made =>
          rw [hg] at hk
          obtain ⟨id, c', a, hc', ha⟩ := hk
          have hut : u ≠ t := by
            rintro rfl
            rw [hnone] at hc'
            cases hc'
          refine ⟨id, c', a, ?_, ha.snoc _⟩
          rw [View.call_calls, Function.update_of_ne hut]
          exact hc'
    · intro id a ha
      exact hinv.live id a ((hiff id a).mp ha)
    · intro id₁ id₂ a h₁ h₂
      exact hinv.apart id₁ id₂ a ((hiff id₁ a).mp h₁) ((hiff id₂ a).mp h₂)
    · intro id u hret
      obtain ⟨a, ha⟩ := hinv.returned id u (by simpa using hret)
      exact ⟨a, ha.snoc _⟩
  · by_cases hc : c = .init
    · subst hc
      exact safe_init
    · exact safe_harmless (every_body hc) fun _ => final fun h => absurd h hc

/-- Two calls of `tt_thread_init` that succeeded leave two objects. -/
theorem two_live [DecidableEq H] [DecidableEq τ]
    {pl : Pool (threadLinuxSig N H) τ (Shared N H τ) (ThreadCall H) TableVal}
    (h : (threadLinuxSys N H τ).Reach Any (.zero, .zero) pl) {id id' : Nat} {t u : τ}
    (hne : id ≠ id') (hfirst : .ret id t .init (.err .success) ∈ pl.view.trace)
    (hagain : .ret id' u .init (.err .success) ∈ pl.view.trace) :
    ∃ a b, a ≠ b ∧ Live pl.view.shared a ∧ Live pl.view.shared b := by
  obtain ⟨G, hinv, -⟩ := (outline N H τ).sound inv_start safe_start h False.elim
  obtain ⟨a, ha⟩ := hinv.returned id t hfirst
  obtain ⟨b, hb⟩ := hinv.returned id' u hagain
  refine ⟨a, b, ?_, hinv.live id a ha, hinv.live id' b hb⟩
  rintro rfl
  exact hne (hinv.apart id id' a ha hb)

/-- Thread 0 initialises a table of two slots, its mutex getting the object at `o`. -/
def initialising (o : Addr) : List (Label Nat (ThreadChoice Nat × LinuxChoice) (ThreadCall Nat)) :=
  .call 0 .init :: .prim 0 (.ok, .addr o) :: onward 0 13 ++ [.ret 0]

/-- The table is initialised and thread 1 has registered a record. -/
def registering : List (Label Nat (ThreadChoice Nat × LinuxChoice) (ThreadCall Nat)) :=
  initialising 50 ++ creating 1 10 100 11 ++ [.ret 1]

/-- It is initialised again while thread 2 is among the slots, and thread 3 comes there too. -/
def overlapping : List (Label Nat (ThreadChoice Nat × LinuxChoice) (ThreadCall Nat)) :=
  List.flatten [
    .call 2 (.findByHandle 100) :: onward 2 3, initialising 51,
    .call 3 (.findByHandle 100) :: onward 3 3]

/-- It is initialised again and the record's thread joined; then the record is destroyed. -/
def losing : List (Label Nat (ThreadChoice Nat × LinuxChoice) (ThreadCall Nat)) :=
  List.flatten [
    initialising 51, .call 1 (.join (some 10)) :: onward 1 4, [.ret 1],
    .call 1 (.destroy (some 10)) :: onward 1 9, [.ret 1]]

end Reinit

open Reinit Guarded in
/--
**Every repeated initialisation does harm.**  Wherever the thread subsystem was
initialised, and whatever the threads do from there on, a further `tt_thread_init` that
returns `TT_SUCCESS` leaves more than one live object for the mutex of the table.
-/
theorem ttThreadInit_repeat_harms {N : Nat} {H τ : Type} [DecidableEq H] [DecidableEq τ]
    {before after : Pool (threadLinuxSig N H) τ (Shared N H τ) (ThreadCall H) TableVal}
    (h : (threadLinuxSys N H τ).Reach Any (.zero, .zero) before) {id id' : Nat} {t u : τ}
    (hfirst : .ret id t .init (.err .success) ∈ before.view.trace)
    {ls : List (Label τ (ThreadChoice H × LinuxChoice) (ThreadCall H))}
    (hrun : (threadLinuxSys N H τ).run Any ls before = some after) (hne : id' ≠ id)
    (hagain : .ret id' u .init (.err .success) ∈ after.view.trace) :
    ¬ Unharmed before after := by
  intro hunharmed
  obtain ⟨a, b, hab, ha, hb⟩ :=
    two_live (h.run ls hrun) hne hagain (Sys.run_trace ls hrun hfirst)
  obtain ⟨c, -, hc⟩ := hunharmed.one
  exact hab ((hc a ha).trans (hc b hb).symm)

open Reinit Guarded in
/-- A thread is registered, and the subsystem initialised again. -/
theorem ttThreadInit_repeat_harms_registered :
    ∃ before after : Pool (threadLinuxSig 2 Nat) Nat (Shared 2 Nat Nat) (ThreadCall Nat) TableVal,
      Thread.InTable before.view.shared.1 10 ∧
      .ret 3 0 .init (.err .success) ∈ after.view.trace ∧ ¬ Unharmed before after := by
  have hbefore : ((threadLinuxSys 2 Nat Nat).run Any registering
      (Sys.start (.zero, .zero))).isSome = true := rfl
  have hafter : ((threadLinuxSys 2 Nat Nat).run Any (registering ++ overlapping)
      (Sys.start (.zero, .zero))).isSome = true := rfl
  have hrun := Sys.run_append registering (Option.some_get hbefore).symm (Option.some_get hafter).symm
  have hfirst : .ret 0 0 .init (.err .success) ∈ (Option.get _ hbefore).view.trace :=
    List.mem_of_getElem? (i := 15) rfl
  have hagain : .ret 3 0 .init (.err .success) ∈ (Option.get _ hafter).view.trace :=
    List.mem_of_getElem? (i := 59) rfl
  exact ⟨_, _, ⟨0, rfl⟩, hagain,
    ttThreadInit_repeat_harms (Sys.Reach.run _ .start (Option.some_get hbefore).symm) hfirst hrun
      (by decide) hagain⟩

open Reinit Guarded in
/-- **It loses a registered thread, which can then not be destroyed, and lets two threads among
the slots.** -/
theorem ttThreadInit_repeated :
    ∃ before after lost :
        Pool (threadLinuxSig 2 Nat) Nat (Shared 2 Nat Nat) (ThreadCall Nat) TableVal,
      (threadLinuxSys 2 Nat Nat).Reach Any (.zero, .zero) before ∧
      Thread.InTable before.view.shared.1 10 ∧
      ((threadLinuxSys 2 Nat Nat).run Any overlapping before = some after ∧
        .ret 3 0 .init (.err .success) ∈ after.view.trace ∧
        after.view.shared.1.table 0 = .zero ∧ after.view.shared.1.table 1 = .zero ∧
        Live after.view.shared 50 ∧ Live after.view.shared 51 ∧ Within after 2 ∧
        Within after 3) ∧
      (threadLinuxSys 2 Nat Nat).run Any losing before = some lost ∧
        .ret 3 1 (.join (some 10)) (.err .success) ∈ lost.view.trace ∧
        .ret 4 1 (.destroy (some 10)) (.err .notFound) ∈ lost.view.trace := by
  have hbefore : ((threadLinuxSys 2 Nat Nat).run Any registering
      (Sys.start (.zero, .zero))).isSome = true := rfl
  have hafter : ((threadLinuxSys 2 Nat Nat).run Any (registering ++ overlapping)
      (Sys.start (.zero, .zero))).isSome = true := rfl
  have hlost : ((threadLinuxSys 2 Nat Nat).run Any (registering ++ losing)
      (Sys.start (.zero, .zero))).isSome = true := rfl
  exact ⟨_, _, _, Sys.Reach.run _ .start (Option.some_get hbefore).symm, ⟨0, rfl⟩,
    ⟨Sys.run_append registering (Option.some_get hbefore).symm (Option.some_get hafter).symm,
      List.mem_of_getElem? (i := 59) rfl, rfl, rfl, ⟨some 2, rfl⟩, ⟨some 3, rfl⟩,
      ⟨2, _, _, _, rfl, rfl⟩, ⟨4, _, _, _, rfl, rfl⟩⟩,
    Sys.run_append registering (Option.some_get hbefore).symm (Option.some_get hlost).symm,
    List.mem_of_getElem? (i := 61) rfl, List.mem_of_getLast? rfl⟩

end TinyTools
