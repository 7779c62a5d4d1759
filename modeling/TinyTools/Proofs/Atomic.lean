/-
Which synchronization the atomic functions give.

On a trace, an access of one call synchronizes with an access of another that reads
its value, if the first has release strength and the second acquire strength.  Two
orders can be taken for that: the one a call was given, as `tt_atomic.h` describes
it, and the one GCC reads off the number the builtin received.  Between the two
numberings lies GCC's `__ATOMIC_CONSUME`, so every order but the relaxed one
arrives a step too weak.  What is left of a requested edge is worked out below: it
survives only between two read-modify-writes, from `ACQ_REL` or `SEQ_CST` to
`SEQ_CST`.

The memory that performs the builtins and the relation that says which call reads
which call's value are arbitrary.
-/
import TinyTools.Atomic

namespace TinyTools

open Interleave

namespace Atomic

variable {A E τ : Type}

/-- A trace of threads calling the atomic functions. -/
abbrev AtomicEvent (A E τ : Type) := Event (atomicSig A E) τ (AtomicCall A E) AtomicVal

/-! ### Accesses -/

/-- What a builtin does to its atomic, and under which order. -/
structure Access : Type where
  reads : Bool
  writes : Bool
  order : MemoryOrder

/-- `i` synchronizes with `j`: it writes with release strength what `j` reads with acquire
strength. -/
def SynchronizesWith (access : Nat → Access → Prop) (rf : Nat → Nat → Prop) (i j : Nat) : Prop :=
  rf i j ∧ (∃ x, access i x ∧ x.writes = true ∧ x.order.releases = true) ∧
    ∃ y, access j y ∧ y.reads = true ∧ y.order.acquires = true

end Atomic

namespace AtomicOp

/-- The builtin reads its atomic. -/
def reads {A E : Type} : AtomicOp A E → Bool
  | .store _ _ _ => false
  | .load _ _ | .fetchAdd _ _ _ | .fetchSub _ _ _ | .compareExchange _ _ _ _ _ _ => true

/-- The builtin has written its atomic, a compare-exchange only where it succeeded. -/
def writes {A E : Type} : (p : AtomicOp A E) → p.Res → Bool
  | .load _ _, _ => false
  | .store _ _ _, _ | .fetchAdd _ _ _, _ | .fetchSub _ _ _, _ => true
  | .compareExchange _ _ _ _ _ _, exchanged => exchanged

/-- The number the builtin works under. -/
def order {A E : Type} : (p : AtomicOp A E) → p.Res → Nat
  | .load _ o, _ | .store _ _ o, _ | .fetchAdd _ _ o, _ | .fetchSub _ _ o, _ => o
  | .compareExchange _ _ _ _ success failure, exchanged => if exchanged then success else failure

/-- A load or store may be given this number.  What else a builtin asks of its numbers, such as a
failure order of a compare-exchange that is one for a load, is left out. -/
def Accepts {A E : Type} : AtomicOp A E → Prop
  | .load _ o => ∃ m, MemoryOrder.ofNumber o = some m ∧ m.forLoad = true
  | .store _ _ o => ∃ m, MemoryOrder.ofNumber o = some m ∧ m.forStore = true
  | .fetchAdd _ _ _ | .fetchSub _ _ _ | .compareExchange _ _ _ _ _ _ => True

end AtomicOp

/-- What `tt_atomic.h` says an order is. -/
def TtMemoryOrder.means : TtMemoryOrder → MemoryOrder
  | relaxed => .relaxed
  | acquire => .acquire
  | release => .release
  | acqRel => .acqRel
  | seqCst => .seqCst

namespace AtomicCall

variable {A E : Type}

/-- The order a call is given. -/
def order : AtomicCall A E → TtMemoryOrder
  | .load _ o | .store _ _ o | .add _ _ o | .sub _ _ o | .compareExchange _ _ _ o => o

/-- The order is one for that kind of operation. -/
def Valid : AtomicCall A E → Prop
  | .load _ o => o.means.forLoad = true
  | .store _ _ o => o.means.forStore = true
  | .add _ _ _ | .sub _ _ _ | .compareExchange _ _ _ _ => True

instance (c : AtomicCall A E) : Decidable c.Valid :=
  match c with
  | .load _ o => inferInstanceAs (Decidable (o.means.forLoad = true))
  | .store _ _ o => inferInstanceAs (Decidable (o.means.forStore = true))
  | .add _ _ _ | .sub _ _ _ | .compareExchange _ _ _ _ => inferInstanceAs (Decidable True)

/-- A read-modify-write. -/
def isRmw : AtomicCall A E → Bool
  | .load _ _ | .store _ _ _ => false
  | .add _ _ _ | .sub _ _ _ | .compareExchange _ _ _ _ => true

/-- The builtin a call performs. -/
def Performs : AtomicCall A E → AtomicOp A E → Prop
  | .load a o, p => ∃ x, a = some x ∧ p = atomicLoad x o
  | .store a v o, p => ∃ x, a = some x ∧ p = atomicStore x v o
  | .add a v o, p => ∃ x, a = some x ∧ p = atomicAdd x v o
  | .sub a v o, p => ∃ x, a = some x ∧ p = atomicSub x v o
  | .compareExchange a e d o, p => ∃ x y, a = some x ∧ e = some y ∧ p = atomicCas x y d o

/-- A call performs no other builtin than its own. -/
theorem body_every (c : AtomicCall A E) : c.body.Every c.Performs := by
  cases c with
  | load a o =>
      cases a with
      | none => trivial
      | some x => exact ⟨⟨x, rfl, rfl⟩, fun _ => trivial⟩
  | store a v o =>
      cases a with
      | none => trivial
      | some x => exact ⟨⟨x, rfl, rfl⟩, fun _ => trivial⟩
  | add a v o =>
      cases a with
      | none => trivial
      | some x => exact ⟨⟨x, rfl, rfl⟩, fun _ => trivial⟩
  | sub a v o =>
      cases a with
      | none => trivial
      | some x => exact ⟨⟨x, rfl, rfl⟩, fun _ => trivial⟩
  | compareExchange a e d o =>
      cases a with
      | none => trivial
      | some x =>
          cases e with
          | none => trivial
          | some y => exact ⟨⟨x, y, rfl, rfl, rfl⟩, fun _ => trivial⟩

variable {c : AtomicCall A E} {p : AtomicOp A E}

/-- The builtin works under the number of the call's order. -/
theorem Performs.order_eq (h : c.Performs p) (r : p.Res) : p.order r = c.order.value := by
  cases c with
  | load a o =>
      obtain ⟨x, -, rfl⟩ := h
      rfl
  | store a v o =>
      obtain ⟨x, -, rfl⟩ := h
      rfl
  | add a v o =>
      obtain ⟨x, -, rfl⟩ := h
      rfl
  | sub a v o =>
      obtain ⟨x, -, rfl⟩ := h
      rfl
  | compareExchange a e d o =>
      obtain ⟨x, y, -, -, rfl⟩ := h
      cases r <;> rfl

end AtomicCall

namespace Atomic

variable {tr : List (AtomicEvent A E τ)} {rf : Nat → Nat → Prop}

/-- The access of call `id`, under the order the call was given. -/
def Requested (tr : List (AtomicEvent A E τ)) (id : Nat) (x : Access) : Prop :=
  ∃ t u c p r, .call id t c ∈ tr ∧ .prim id u p r ∈ tr ∧
    x = ⟨p.reads, p.writes r, c.order.means⟩

/-- The access of call `id`, under the order its builtin received. -/
def Received (tr : List (AtomicEvent A E τ)) (id : Nat) (x : Access) : Prop :=
  ∃ t p r m, .prim id t p r ∈ tr ∧ MemoryOrder.ofNumber (p.order r) = some m ∧
    x = ⟨p.reads, p.writes r, m⟩

/-- The requested synchronization is there, and no builtin received an order it may not have. -/
def Honoured (tr : List (AtomicEvent A E τ)) (rf : Nat → Nat → Prop) : Prop :=
  (∀ i j, SynchronizesWith (Requested tr) rf i j → SynchronizesWith (Received tr) rf i j) ∧
    ∀ id t p r, .prim id t p r ∈ tr → p.Accepts

/-- The requests that the two numberings leave as they were meant. -/
structure Aligned (tr : List (AtomicEvent A E τ)) (rf : Nat → Nat → Prop) : Prop where
  load : ∀ id t u a o p r, .call id t (.load a o) ∈ tr → .prim id u p r ∈ tr → o ≠ .seqCst
  store : ∀ id t u a v o p r, .call id t (.store a v o) ∈ tr → .prim id u p r ∈ tr →
    o = .relaxed
  edge : ∀ i j t u c c', .call i t c ∈ tr → .call j u c' ∈ tr →
    SynchronizesWith (Requested tr) rf i j →
    (c.isRmw = true ∧ (c.order = .acqRel ∨ c.order = .seqCst)) ∧
      c'.isRmw = true ∧ c'.order = .seqCst

/-! ### What the numbers come to -/

/-- GCC takes the number of an order for one of release strength. -/
theorem releases_iff (o : TtMemoryOrder) :
    (∃ m, MemoryOrder.ofNumber o.value = some m ∧ m.releases = true) ↔
      o = .acqRel ∨ o = .seqCst := by
  cases o <;> simp [TtMemoryOrder.value, MemoryOrder.ofNumber, MemoryOrder.releases]

/-- GCC takes the number of an order for one of acquire strength. -/
theorem acquires_iff (o : TtMemoryOrder) :
    (∃ m, MemoryOrder.ofNumber o.value = some m ∧ m.acquires = true) ↔
      o = .release ∨ o = .seqCst := by
  cases o <;> simp [TtMemoryOrder.value, MemoryOrder.ofNumber, MemoryOrder.acquires]

theorem accepts_load_iff {x : A} {o : TtMemoryOrder} (hvalid : o.means.forLoad = true) :
    (atomicLoad x o : AtomicOp A E).Accepts ↔ o ≠ .seqCst := by
  cases o <;> simp_all [atomicLoad, AtomicOp.Accepts, TtMemoryOrder.value, TtMemoryOrder.means,
    MemoryOrder.ofNumber, MemoryOrder.forLoad]

theorem accepts_store_iff {x : A} {v : Int32} {o : TtMemoryOrder}
    (hvalid : o.means.forStore = true) :
    (atomicStore x v o : AtomicOp A E).Accepts ↔ o = .relaxed := by
  cases o <;> simp_all [atomicStore, AtomicOp.Accepts, TtMemoryOrder.value, TtMemoryOrder.means,
    MemoryOrder.ofNumber, MemoryOrder.forStore]

section Builtins

variable {c : AtomicCall A E} {p : AtomicOp A E}

theorem isRmw_of_writes {r : p.Res} (h : c.Performs p) (hw : p.writes r = true) :
    c.isRmw = true ∨ ∃ a v o, c = .store a v o := by
  cases c with
  | load a o =>
      obtain ⟨x, -, rfl⟩ := h
      cases hw
  | store a v o => exact Or.inr ⟨a, v, o, rfl⟩
  | add a v o => exact Or.inl rfl
  | sub a v o => exact Or.inl rfl
  | compareExchange a e d o => exact Or.inl rfl

theorem isRmw_of_reads (h : c.Performs p) (hr : p.reads = true) :
    c.isRmw = true ∨ ∃ a o, c = .load a o := by
  cases c with
  | load a o => exact Or.inr ⟨a, o, rfl⟩
  | store a v o =>
      obtain ⟨x, -, rfl⟩ := h
      cases hr
  | add a v o => exact Or.inl rfl
  | sub a v o => exact Or.inl rfl
  | compareExchange a e d o => exact Or.inl rfl

end Builtins

/-! ### Traces -/

/-- What a trace of valid requests is. -/
structure Trace (tr : List (AtomicEvent A E τ)) : Prop where
  performs : ∀ id t p r, .prim id t p r ∈ tr → ∃ u c, .call id u c ∈ tr ∧ c.Performs p
  once : ∀ id t u c c', .call id t c ∈ tr → .call id u c' ∈ tr → c = c'
  valid : ∀ id t c, .call id t c ∈ tr → c.Valid

namespace Trace

theorem of_reach [DecidableEq τ] {χ σ : Type} {M : Machine (atomicSig A E) τ χ σ} {s : σ}
    {pl : Pool (atomicSig A E) τ σ (AtomicCall A E) AtomicVal}
    (h : (atomicSys M).Reach (fun _ _ c => c.Valid) s pl) : Trace pl.view.trace := by
  refine ⟨?_, ?_, ?_⟩
  · intro id t p r hp
    obtain ⟨c, hc, hcp⟩ := h.prim_mem (fun c => c.body_every) id t p r hp
    exact ⟨t, c, hc, hcp⟩
  · intro id t u c c' hc hc'
    exact (h.books.once id t u c c' hc hc').2
  · intro id t c hc
    exact h.call_mem (P := AtomicCall.Valid) (fun _ _ _ hvalid => hvalid) id t c hc

variable (h : Trace tr)

include h

/-- The builtin of a call that is known. -/
theorem performs_of {id : Nat} {t u : τ} {c : AtomicCall A E} {p : AtomicOp A E} {r : p.Res}
    (hc : .call id t c ∈ tr) (hp : .prim id u p r ∈ tr) : c.Performs p := by
  obtain ⟨w, c', hc', hperf⟩ := h.performs id u p r hp
  rw [h.once id t w c c' hc hc']
  exact hperf

/-- Calls that asked for no more than the numbers carry get what they asked for. -/
theorem honoured (ha : Aligned tr rf) : Honoured tr rf := by
  refine ⟨?_, ?_⟩
  · intro i j hs
    obtain ⟨hrf, ⟨_, ⟨t, u, c, p, r, hc, hp, rfl⟩, hw, hrel⟩,
      ⟨_, ⟨t', u', c', q, r', hc', hq, rfl⟩, hr, hacq⟩⟩ := hs
    have hs : SynchronizesWith (Requested tr) rf i j :=
      ⟨hrf, ⟨_, ⟨t, u, c, p, r, hc, hp, rfl⟩, hw, hrel⟩,
        ⟨_, ⟨t', u', c', q, r', hc', hq, rfl⟩, hr, hacq⟩⟩
    obtain ⟨⟨-, hrelo⟩, -, hacqo⟩ := ha.edge i j t t' c c' hc hc' hs
    obtain ⟨m, hm, hmrel⟩ := (releases_iff c.order).mpr hrelo
    obtain ⟨m', hm', hmacq⟩ := (acquires_iff c'.order).mpr (Or.inr hacqo)
    refine ⟨hrf, ⟨_, ⟨u, p, r, m, hp, ?_, rfl⟩, hw, hmrel⟩,
      ⟨_, ⟨u', q, r', m', hq, ?_, rfl⟩, hr, hmacq⟩⟩
    · rw [(h.performs_of hc hp).order_eq]
      exact hm
    · rw [(h.performs_of hc' hq).order_eq]
      exact hm'
  · intro id t p r hp
    obtain ⟨u, c, hc, hperf⟩ := h.performs id t p r hp
    have hvalid : c.Valid := h.valid id u c hc
    cases c with
    | load a o =>
        obtain ⟨x, -, rfl⟩ := hperf
        exact (accepts_load_iff hvalid).mpr (ha.load id u t a o _ r hc hp)
    | store a v o =>
        obtain ⟨x, -, rfl⟩ := hperf
        exact (accepts_store_iff hvalid).mpr (ha.store id u t a v o _ r hc hp)
    | add a v o =>
        obtain ⟨x, -, rfl⟩ := hperf
        trivial
    | sub a v o =>
        obtain ⟨x, -, rfl⟩ := hperf
        trivial
    | compareExchange a e d o =>
        obtain ⟨x, y, -, -, rfl⟩ := hperf
        trivial

/-- Where everything requested is given, no more was asked for than the numbers carry. -/
theorem aligned (hh : Honoured tr rf) : Aligned tr rf := by
  obtain ⟨hsync, haccepts⟩ := hh
  have hload : ∀ id t u a o p r, .call id t (.load a o) ∈ tr → .prim id u p r ∈ tr →
      o ≠ .seqCst := by
    intro id t u a o p r hc hp
    obtain ⟨x, -, rfl⟩ := h.performs_of hc hp
    exact (accepts_load_iff (h.valid id t _ hc)).mp (haccepts id u _ r hp)
  have hstore : ∀ id t u a v o p r, .call id t (.store a v o) ∈ tr → .prim id u p r ∈ tr →
      o = .relaxed := by
    intro id t u a v o p r hc hp
    obtain ⟨x, -, rfl⟩ := h.performs_of hc hp
    exact (accepts_store_iff (h.valid id t _ hc)).mp (haccepts id u _ r hp)
  refine ⟨hload, hstore, ?_⟩
  intro i j t u c c' hc hc' hs
  obtain ⟨-, -, ⟨_, ⟨t₂, u₂, c₂, q₂, r₂, hc₂, hq₂, rfl⟩, -, hacq₂⟩⟩ := id hs
  obtain ⟨-, ⟨_, ⟨w, p, r, m, hp, hm, rfl⟩, hw, hrel⟩,
    ⟨_, ⟨w', q, r', m', hq, hm', rfl⟩, hr, hacq⟩⟩ := hsync i j hs
  rw [h.once j t₂ u c₂ c' hc₂ hc'] at hacq₂
  have hperf : c.Performs p := h.performs_of hc hp
  have hperf' : c'.Performs q := h.performs_of hc' hq
  rw [hperf.order_eq] at hm
  rw [hperf'.order_eq] at hm'
  have ho : c.order = .acqRel ∨ c.order = .seqCst := (releases_iff c.order).mp ⟨m, hm, hrel⟩
  have ho' : c'.order = .seqCst := by
    rcases (acquires_iff c'.order).mp ⟨m', hm', hacq⟩ with hrelease | hseq
    · -- as a request, the order GCC takes for an acquire does not acquire
      rw [hrelease] at hacq₂
      cases hacq₂
    · exact hseq
  refine ⟨⟨?_, ho⟩, ?_, ho'⟩
  · rcases isRmw_of_writes hperf hw with hrmw | ⟨a, v, o, rfl⟩
    · exact hrmw
    · have hrelaxed : o = .relaxed := hstore i t w a v o p r hc hp
      subst hrelaxed
      rcases ho with ho | ho <;> cases ho
  · rcases isRmw_of_reads hperf' hr with hrmw | ⟨a, o, rfl⟩
    · exact hrmw
    · exact absurd ho' (hload j u w' a o q r' hc' hq)

end Trace

end Atomic

/-! ### Requests and what comes of them -/

section Honoured

open Atomic

/--
**What the orders come to.**  Over any memory, in every reachable pool in which each
call was given an order for its kind of operation, and for any reads-from: the
requested synchronization is there and every builtin may have the order it received,
exactly where no load asked for `SEQ_CST`, every store for `RELAXED`, and each
requested edge goes from a read-modify-write under `ACQ_REL` or `SEQ_CST` to one under
`SEQ_CST`.
-/
theorem ttAtomic_honoured_iff {A E τ χ σ : Type} [DecidableEq τ]
    (M : Machine (atomicSig A E) τ χ σ) {s : σ}
    {pl : Pool (atomicSig A E) τ σ (AtomicCall A E) AtomicVal}
    (h : (atomicSys M).Reach (fun _ _ c => c.Valid) s pl) (rf : Nat → Nat → Prop) :
    Honoured pl.view.trace rf ↔ Aligned pl.view.trace rf :=
  ⟨(Trace.of_reach h).aligned, (Trace.of_reach h).honoured⟩

/-- One atomic, zero at first, and one place for `*expected`. -/
def zeroMem : AtomicMem Unit Unit := ⟨fun _ => 0, fun _ => 0⟩

/-- The second call reads what the first one wrote. -/
def secondReadsFirst (i j : Nat) : Prop := i = 0 ∧ j = 1

/-- One thread adds under `ACQ_REL`, the other one then under `SEQ_CST`. -/
def countingOn : List (Label Bool Unit (AtomicCall Unit Unit)) :=
  [.call false (.add (some ()) 1 .acqRel), .prim false (), .ret false,
    .call true (.add (some ()) 1 .seqCst), .prim true (), .ret true]

/-- What is on its trace. -/
def countingTrace : List (AtomicEvent Unit Unit Bool) :=
  [.call 0 false (.add (some ()) 1 .acqRel), .prim 0 false (.fetchAdd () 1 3) 0,
    .ret 0 false (.add (some ()) 1 .acqRel) (.int 0),
    .call 1 true (.add (some ()) 1 .seqCst), .prim 1 true (.fetchAdd () 1 4) 1,
    .ret 1 true (.add (some ()) 1 .seqCst) (.int 1)]

/-- An edge that is requested and kept. -/
theorem ttAtomic_honoured_iff_counting :
    ∃ pl, (atomicSys (atomicMachine Unit Unit Bool)).Reach (fun _ _ c => c.Valid) zeroMem pl ∧
      SynchronizesWith (Requested pl.view.trace) secondReadsFirst 0 1 ∧
      Honoured pl.view.trace secondReadsFirst := by
  have hrun : ((atomicSys (atomicMachine Unit Unit Bool)).run (fun _ _ c => c.Valid) countingOn
      (Sys.start zeroMem)).isSome = true := rfl
  have hreach := Sys.Reach.run _ .start (Option.some_get hrun).symm
  have htrace : (Option.get _ hrun).view.trace = countingTrace := rfl
  refine ⟨_, hreach, ?_, (ttAtomic_honoured_iff _ hreach secondReadsFirst).mpr ?_⟩
  · exact ⟨⟨rfl, rfl⟩,
      ⟨_, ⟨false, false, .add (some ()) 1 .acqRel, .fetchAdd () 1 3, 0,
        List.mem_of_getElem? (i := 0) rfl, List.mem_of_getElem? (i := 1) rfl, rfl⟩, rfl, rfl⟩,
      ⟨_, ⟨true, true, .add (some ()) 1 .seqCst, .fetchAdd () 1 4, 1,
        List.mem_of_getElem? (i := 3) rfl, List.mem_of_getElem? (i := 4) rfl, rfl⟩, rfl, rfl⟩⟩
  · rw [htrace]
    refine ⟨?_, ?_, ?_⟩
    · intro id t u a o p r hc
      simp [countingTrace] at hc
    · intro id t u a v o p r hc
      simp [countingTrace] at hc
    · rintro i j t u c c' hc hc' ⟨⟨rfl, rfl⟩, -⟩
      have hadd : c = .add (some ()) 1 .acqRel := by
        have hmem : t = false ∧ c = .add (some ()) 1 .acqRel := by simpa [countingTrace] using hc
        exact hmem.2
      have hadd' : c' = .add (some ()) 1 .seqCst := by
        have hmem : u = true ∧ c' = .add (some ()) 1 .seqCst := by simpa [countingTrace] using hc'
        exact hmem.2
      subst hadd hadd'
      exact ⟨⟨rfl, Or.inl rfl⟩, rfl, rfl⟩

/-- One thread stores under `RELEASE` what the other one loads under `ACQUIRE`. -/
def publishing : List (Label Bool Unit (AtomicCall Unit Unit)) :=
  [.call false (.store (some ()) 1 .release), .prim false (), .ret false,
    .call true (.load (some ()) .acquire), .prim true (), .ret true]

/-- The store is carried out under the order of an acquire, which no store may have, and the
load under the order of a consume. -/
theorem ttAtomic_published :
    ∃ pl, (atomicSys (atomicMachine Unit Unit Bool)).Reach (fun _ _ c => c.Valid) zeroMem pl ∧
      .ret 1 true (.load (some ()) .acquire) (.int 1) ∈ pl.view.trace ∧
      SynchronizesWith (Requested pl.view.trace) secondReadsFirst 0 1 ∧
      ¬ SynchronizesWith (Received pl.view.trace) secondReadsFirst 0 1 ∧
      ∃ id t p r, .prim id t p r ∈ pl.view.trace ∧ ¬ p.Accepts := by
  have hrun : ((atomicSys (atomicMachine Unit Unit Bool)).run (fun _ _ c => c.Valid) publishing
      (Sys.start zeroMem)).isSome = true := rfl
  have hstored : .prim 0 false (.store () 1 2) () ∈ (Option.get _ hrun).view.trace :=
    List.mem_of_getElem? (i := 1) rfl
  have hloaded : .prim 1 true (.load () 1) 1 ∈ (Option.get _ hrun).view.trace :=
    List.mem_of_getElem? (i := 4) rfl
  refine ⟨_, Sys.Reach.run _ .start (Option.some_get hrun).symm,
    List.mem_of_getLast? rfl, ?_, ?_, 0, false, .store () 1 2, (), hstored, ?_⟩
  · exact ⟨⟨rfl, rfl⟩,
      ⟨_, ⟨false, false, _, _, _, List.mem_of_getElem? (i := 0) rfl, hstored, rfl⟩, rfl, rfl⟩,
      ⟨_, ⟨true, true, _, _, _, List.mem_of_getElem? (i := 3) rfl, hloaded, rfl⟩, rfl, rfl⟩⟩
  · rintro ⟨-, ⟨_, ⟨t, p, r, m, hp, hm, rfl⟩, -, hrel⟩, -⟩
    have hsame : prims (Option.get _ hrun).view.trace 0 = [⟨.store () 1 2, ()⟩] := rfl
    have hp' : (⟨p, r⟩ : (atomicSig Unit Unit).Done) ∈ [⟨.store () 1 2, ()⟩] :=
      hsame ▸ mem_prims hp
    cases List.mem_singleton.mp hp'
    cases hm
    cases hrel
  · rintro ⟨m, hm, hstore⟩
    cases hm
    cases hstore

end Honoured

end TinyTools
