/-
The ring buffer is a bounded queue laid out in a circle.

`Layout` is the closed form of the whole physical state: with `ws` the bytes written
since the last successful init and `R` the number of reads since then, the indices are
`ws.length` and `R` modulo the size, `count` is their difference, and the memory is the
one init found with the bytes of `ws` stored around the circle.  Each call keeps it,
with one more byte or one more read where it succeeds and unchanged where it does not,
and it is this difference, never the two equal indices, that tells full from empty.

The queue of capacity `size` is what is left of `ws` after `R` bytes.  A byte still in
it is one of the last `size` written, so no later write has reached its cell.
-/
import TinyTools.Lib.Ring
import TinyTools.Ringbuf

namespace TinyTools

namespace Ringbuf

variable {w : Nat}

/-! ### The cells of the buffer -/

/-- The memory after the bytes `ws` went around the `n` cells at `b`, starting from `mem₀`. -/
structure Cells (b n : Nat) (mem₀ : Mem) (ws : List UInt8) (mem : Mem) : Prop where
  mapped : mem₀.Maps b n
  same : ∀ a, (mem.byte a).isSome = (mem₀.byte a).isSome
  cell : ∀ j < n, mem.byte (b + j)
    = Ring.ringCell (fun j => mem₀.byte (b + j)) n (ws.map some) j
  outside : ∀ a, (∀ j < n, a ≠ b + j) → mem.byte a = mem₀.byte a
  /-- Only cells of the buffer have been accessed. -/
  touched : ∃ js : List Nat, (∀ j ∈ js, j < n) ∧ mem.touched = mem₀.touched ++ js.map (b + ·)

namespace Cells

variable {b n : Nat} {mem₀ mem : Mem} {ws : List UInt8}

theorem init (hmap : mem₀.Maps b n) : Cells b n mem₀ [] mem₀ := by
  refine ⟨hmap, fun _ => rfl, ?_, ?_, ?_⟩
  · intro j _
    rfl
  · intro a _
    rfl
  · exact ⟨[], by simp, by simp⟩

theorem maps (h : Cells b n mem₀ ws mem) : mem.Maps b n := by
  intro j hj
  rw [h.same]
  exact h.mapped j hj

/-- One more cell accessed. -/
theorem touched_snoc (h : Cells b n mem₀ ws mem) {i : Nat} (hi : i < n) :
    ∃ js : List Nat, (∀ j ∈ js, j < n) ∧
      mem.touched ++ [b + i] = mem₀.touched ++ js.map (b + ·) := by
  obtain ⟨js, hjs, htouched⟩ := h.touched
  refine ⟨js ++ [i], ?_, by simp [htouched]⟩
  intro j hj
  rcases List.mem_append.mp hj with hj | hj
  · exact hjs j hj
  · rw [List.mem_singleton.mp hj]
    exact hi

/-- The next byte goes to the cell its number falls on. -/
theorem store (h : Cells b n mem₀ ws mem) (hn : 0 < n) (x : UInt8) :
    ∃ mem', mem.store (some b) (ws.length % n) x = some mem' ∧
      Cells b n mem₀ (ws ++ [x]) mem' := by
  have hi : ws.length % n < n := Nat.mod_lt _ hn
  obtain ⟨y, hy⟩ := Option.isSome_iff_exists.mp (h.maps _ hi)
  have hupd : ∀ j, Function.update mem.byte (b + ws.length % n) (some x) (b + j)
      = if j = ws.length % n then some x else mem.byte (b + j) := by
    intro j
    by_cases hj : j = ws.length % n
    · simp [hj]
    · rw [Function.update_of_ne (by omega), if_neg hj]
  refine ⟨⟨Function.update mem.byte (b + ws.length % n) (some x),
    mem.touched ++ [b + ws.length % n]⟩, by simp [Mem.store, hy], h.mapped, ?_, ?_, ?_,
    h.touched_snoc hi⟩
  · intro a
    show (Function.update mem.byte (b + ws.length % n) (some x) a).isSome = _
    by_cases ha : a = b + ws.length % n
    · subst ha
      rw [Function.update_self, ← h.same, hy]
      rfl
    · rw [Function.update_of_ne ha]
      exact h.same a
  · intro j hj
    show Function.update mem.byte (b + ws.length % n) (some x) (b + j) = _
    rw [hupd, List.map_append, List.map_singleton, Ring.ringCell_snoc, List.length_map]
    by_cases hji : j = ws.length % n
    · simp [hji]
    · rw [if_neg hji, Function.update_of_ne hji]
      exact h.cell j hj
  · intro a ha
    have hne : a ≠ b + ws.length % n := ha _ hi
    show Function.update mem.byte (b + ws.length % n) (some x) a = mem₀.byte a
    rw [Function.update_of_ne hne]
    exact h.outside a ha

/-- One of the last `n` bytes is still there to be read. -/
theorem load (h : Cells b n mem₀ ws mem) (hn : 0 < n) {R : Nat} (hR : R < ws.length)
    (hrecent : ws.length ≤ R + n) :
    ∃ mem', mem.load (some b) (R % n) = some (ws[R], mem') ∧ Cells b n mem₀ ws mem' := by
  have hi : R % n < n := Nat.mod_lt _ hn
  have hbyte : mem.byte (b + R % n) = some ws[R] := by
    have hlen : R < (ws.map some).length := by simpa using hR
    rw [h.cell _ hi, Ring.ringCell_recent _ hlen (by simpa using hrecent), List.getElem_map]
  refine ⟨{ mem with touched := mem.touched ++ [b + R % n] }, by simp [Mem.load, hbyte], ?_⟩
  exact ⟨h.mapped, h.same, h.cell, h.outside, h.touched_snoc hi⟩

end Cells

/-! ### The indices -/

theorem toNat_pos {n : BitVec w} (hn : n ≠ 0) : 0 < n.toNat := by
  rcases Nat.eq_zero_or_pos n.toNat with h0 | h0
  · exact absurd (BitVec.eq_of_toNat_eq (by simpa using h0)) hn
  · exact h0

/-- Below a size there is always room for one more. -/
theorem toNat_succ {i n : BitVec w} (h : i.toNat < n.toNat) : (i + 1).toNat = i.toNat + 1 := by
  have hn : n.toNat < 2 ^ w := n.isLt
  have hw : 0 < w := by
    rcases Nat.eq_zero_or_pos w with hw | hw
    · subst hw
      omega
    · exact hw
  have hone : (1 : BitVec w).toNat = 1 := by simp [hw]
  rw [BitVec.toNat_add, hone]
  exact Nat.mod_eq_of_lt (by omega)

theorem toNat_pred {i : BitVec w} (h : 0 < i.toNat) : (i - 1).toNat + 1 = i.toNat := by
  have hi : i.toNat < 2 ^ w := i.isLt
  have hw : 0 < w := by
    rcases Nat.eq_zero_or_pos w with hw | hw
    · subst hw
      omega
    · exact hw
  have hone : (1 : BitVec w).toNat = 1 := by simp [hw]
  rw [BitVec.toNat_sub_of_le (by rw [BitVec.le_def, hone]; exact h), hone]
  omega

/-- The next index is the next number, modulo the size. -/
theorem umod_succ {i n : BitVec w} {k : Nat} (hn : n ≠ 0) (hi : i.toNat = k % n.toNat) :
    ∃ j, umod (i + 1) n = some j ∧ j.toNat = (k + 1) % n.toNat := by
  have hlt : i.toNat < n.toNat := hi ▸ Nat.mod_lt k (toNat_pos hn)
  refine ⟨(i + 1) % n, if_neg hn, ?_⟩
  rw [BitVec.toNat_umod, toNat_succ hlt, hi, Nat.mod_add_mod]

/-! ### The closed form -/

/-- The state after `ws` was written and `R` bytes were read since an init with `b` and `n`
on the memory `mem₀`. -/
structure Layout (b : Nat) (n : BitVec w) (mem₀ : Mem) (ws : List UInt8) (R : Nat)
    (st : RingbufSt w) : Prop where
  size_ne : n ≠ 0
  buffer : st.rb.buffer = some b
  size : st.rb.size = n
  head : st.rb.head.toNat = ws.length % n.toNat
  tail : st.rb.tail.toNat = R % n.toNat
  count : st.rb.count.toNat = ws.length - R
  le : R ≤ ws.length
  bound : ws.length ≤ R + n.toNat
  cells : Cells b n.toNat mem₀ ws st.mem

namespace Layout

variable {b : Nat} {n : BitVec w} {mem₀ : Mem} {ws : List UInt8} {R : Nat} {st : RingbufSt w}

/-- A successful init starts an empty layout. -/
theorem init (hn : n ≠ 0) (hmap : mem₀.Maps b n.toNat) :
    Layout b n mem₀ [] 0 ⟨⟨some b, n, 0, 0, 0⟩, mem₀⟩ := by
  refine ⟨hn, rfl, rfl, ?_, ?_, ?_, Nat.le_refl 0, Nat.zero_le _, Cells.init hmap⟩
  · simp
  · simp
  · simp

theorem isFull_eq (h : Layout b n mem₀ ws R st) :
    ttRingbufIsFull (some st.rb) = decide (ws.length - R = n.toNat) := by
  unfold ttRingbufIsFull
  refine decide_eq_decide.mpr ?_
  rw [← BitVec.toNat_inj, h.count, h.size]

theorem isEmpty_eq (h : Layout b n mem₀ ws R st) :
    ttRingbufIsEmpty (some st.rb) = decide (ws.length - R = 0) := by
  unfold ttRingbufIsEmpty
  refine decide_eq_decide.mpr ?_
  rw [← BitVec.toNat_inj, h.count]
  simp

/-- A write into a full buffer changes nothing. -/
theorem write_full (h : Layout b n mem₀ ws R st) (hfull : ws.length - R = n.toNat)
    (x : UInt8) : ringbufCall (.write x) st = some (⟨.bufferFull, none⟩, st) := by
  simp [ringbufCall, ttRingbufWrite, h.isFull_eq, hfull]

/-- A write into a buffer with room adds its byte to the layout. -/
theorem write_room (h : Layout b n mem₀ ws R st) (hroom : ws.length - R < n.toNat)
    (x : UInt8) : ∃ st', ringbufCall (.write x) st = some (⟨.success, none⟩, st') ∧
      Layout b n mem₀ (ws ++ [x]) R st' := by
  have hle := h.le
  have hfull : ttRingbufIsFull (some st.rb) = false := by
    rw [h.isFull_eq]
    exact decide_eq_false (Nat.ne_of_lt hroom)
  obtain ⟨mem', hstore, hcells⟩ := h.cells.store (toNat_pos h.size_ne) x
  obtain ⟨head, hhead, hnat⟩ := umod_succ h.size_ne h.head
  refine ⟨⟨{ st.rb with head := head, count := st.rb.count + 1 }, mem'⟩, ?_, ?_⟩
  · simp only [ringbufCall, ttRingbufWrite, hfull, h.buffer, h.head, hstore, h.size, hhead]
    rfl
  refine ⟨h.size_ne, h.buffer, h.size, ?_, h.tail, ?_, ?_, ?_, hcells⟩
  · simpa using hnat
  · have hcount : st.rb.count.toNat < n.toNat := h.count ▸ hroom
    show (st.rb.count + 1).toNat = _
    rw [toNat_succ hcount, h.count, List.length_append, List.length_singleton]
    omega
  · rw [List.length_append]
    exact Nat.le_add_right_of_le hle
  · rw [List.length_append, List.length_singleton]
    omega

/-- A read from an empty buffer changes nothing, `*data` included. -/
theorem read_empty (h : Layout b n mem₀ ws R st) (hempty : ws.length = R) (old : UInt8) :
    ringbufCall (.read old) st = some (⟨.bufferEmpty, some old⟩, st) := by
  simp [ringbufCall, ttRingbufRead, h.isEmpty_eq, hempty]

/-- A read from a buffer that is not empty delivers the oldest byte. -/
theorem read_some (h : Layout b n mem₀ ws R st) (hR : R < ws.length) (old : UInt8) :
    ∃ st', ringbufCall (.read old) st = some (⟨.success, some ws[R]⟩, st') ∧
      Layout b n mem₀ ws (R + 1) st' := by
  have hbound := h.bound
  have hempty : ttRingbufIsEmpty (some st.rb) = false := by
    rw [h.isEmpty_eq]
    exact decide_eq_false (by omega)
  obtain ⟨mem', hload, hcells⟩ := h.cells.load (toNat_pos h.size_ne) hR h.bound
  obtain ⟨tail, htail, hnat⟩ := umod_succ h.size_ne h.tail
  refine ⟨⟨{ st.rb with tail := tail, count := st.rb.count - 1 }, mem'⟩, ?_, ?_⟩
  · simp only [ringbufCall, ttRingbufRead, hempty, h.buffer, h.tail, hload, h.size, htail]
    rfl
  refine ⟨h.size_ne, h.buffer, h.size, h.head, hnat, ?_, hR, ?_, hcells⟩
  · have hpos : 0 < st.rb.count.toNat := by
      rw [h.count]
      omega
    have hpred := toNat_pred hpos
    rw [h.count] at hpred
    show (st.rb.count - 1).toNat = _
    omega
  · omega

end Layout

/-! ### The queue it stands for -/

variable {cap : Nat}

/-- What a bounded queue answers to a write or a read. -/
def queueCall : RingbufCall → Ring.Queue UInt8 cap → RingbufObs × Ring.Queue UInt8 cap
  | .write x, q =>
      match q.push x with
      | some q' => (⟨.success, none⟩, q')
      | none => (⟨.bufferFull, none⟩, q)
  | .read old, q =>
      match q.pop with
      | some (x, q') => (⟨.success, some x⟩, q')
      | none => (⟨.bufferEmpty, some old⟩, q)

/-- A queue has no init; one that fails is refused and leaves it alone. -/
def queueAct : RingbufAct w → Ring.Queue UInt8 cap → RingbufObs × Ring.Queue UInt8 cap
  | .init _ _, q => (⟨.invalidParam, none⟩, q)
  | .call c, q => queueCall c q

def queueRun : List (RingbufAct w) → Ring.Queue UInt8 cap →
    List RingbufObs × Ring.Queue UInt8 cap
  | [], q => ([], q)
  | a :: acts, q =>
      let (o, q) := queueAct a q
      let (obs, q) := queueRun acts q
      (o :: obs, q)

@[simp] theorem queueRun_nil (q : Ring.Queue UInt8 cap) :
    queueRun ([] : List (RingbufAct w)) q = ([], q) := rfl

@[simp] theorem queueRun_cons (a : RingbufAct w) (acts : List (RingbufAct w))
    (q : Ring.Queue UInt8 cap) :
    queueRun (a :: acts) q
      = ((queueAct a q).1 :: (queueRun acts (queueAct a q).2).1,
        (queueRun acts (queueAct a q).2).2) := rfl

theorem queueCall_full {q : Ring.Queue UInt8 cap} (x : UInt8) (h : q.items.length = cap) :
    queueCall (.write x) q = (⟨.bufferFull, none⟩, q) := by
  simp [queueCall, Ring.Queue.push_of_full x h]

theorem queueCall_room {q : Ring.Queue UInt8 cap} (x : UInt8) (h : q.items.length < cap) :
    ∃ hb, queueCall (.write x) q = (⟨.success, none⟩, ⟨q.items ++ [x], hb⟩) := by
  refine ⟨by simp; omega, ?_⟩
  simp [queueCall, Ring.Queue.push_of_lt x h]

theorem queueCall_empty {q : Ring.Queue UInt8 cap} (old : UInt8) (h : q.items = []) :
    queueCall (.read old) q = (⟨.bufferEmpty, some old⟩, q) := by
  simp [queueCall, Ring.Queue.pop_of_nil h]

theorem queueCall_some {q : Ring.Queue UInt8 cap} (old : UInt8) {x : UInt8} {rest : List UInt8}
    (h : q.items = x :: rest) :
    ∃ hb, queueCall (.read old) q = (⟨.success, some x⟩, ⟨rest, hb⟩) := by
  obtain ⟨hb, hpop⟩ := Ring.Queue.pop_of_cons h
  exact ⟨hb, by simp [queueCall, hpop]⟩

@[simp] theorem bytesWritten_nil : bytesWritten ([] : List (RingbufAct w)) [] = [] := rfl

@[simp] theorem bytesRead_nil : bytesRead ([] : List (RingbufAct w)) [] = [] := rfl

theorem bytesWritten_cons (a : RingbufAct w) (acts : List (RingbufAct w)) (o : RingbufObs)
    (obs : List RingbufObs) :
    bytesWritten (a :: acts) (o :: obs) = (wrote a o).toList ++ bytesWritten acts obs := by
  unfold bytesWritten
  cases h : wrote a o with
  | none => simp [h]
  | some x => simp [h]

theorem bytesRead_cons (a : RingbufAct w) (acts : List (RingbufAct w)) (o : RingbufObs)
    (obs : List RingbufObs) :
    bytesRead (a :: acts) (o :: obs) = (delivered a o).toList ++ bytesRead acts obs := by
  unfold bytesRead
  cases h : delivered a o with
  | none => simp [h]
  | some x => simp [h]

/-- What was in the queue and went in is what came out and is left, in this order. -/
theorem queueAct_balance (a : RingbufAct w) (q : Ring.Queue UInt8 cap) :
    q.items ++ (wrote a (queueAct a q).1).toList
      = (delivered a (queueAct a q).1).toList ++ (queueAct a q).2.items := by
  cases a with
  | init b n => simp [queueAct, wrote, delivered]
  | call c =>
      cases c with
      | write x =>
          rcases Nat.lt_or_eq_of_le q.bounded with hlt | hfull
          · obtain ⟨hb, hq⟩ := queueCall_room x hlt
            simp [queueAct, hq, wrote, delivered]
          · simp [queueAct, queueCall_full x hfull, wrote, delivered]
      | read old =>
          rcases hitems : q.items with _ | ⟨x, rest⟩
          · simp [queueAct, queueCall_empty old hitems, wrote, delivered, hitems]
          · obtain ⟨hb, hq⟩ := queueCall_some old hitems
            simp [queueAct, hq, wrote, delivered]

theorem queueRun_balance (acts : List (RingbufAct w)) (q : Ring.Queue UInt8 cap) :
    q.items ++ bytesWritten acts (queueRun acts q).1
      = bytesRead acts (queueRun acts q).1 ++ (queueRun acts q).2.items := by
  induction acts generalizing q with
  | nil => simp
  | cons a acts ih =>
      rw [queueRun_cons, bytesWritten_cons, bytesRead_cons, ← List.append_assoc,
        queueAct_balance, List.append_assoc, List.append_assoc, ih]

/-! ### Refinement -/

/-- A valid init succeeds, whatever the structure held. -/
theorem ttRingbufInit_success {n : BitVec w} (hn : n ≠ 0) (b : Nat) (rb : TtRingbuf w) :
    ttRingbufInit (some rb) (some b) n = (.success, some ⟨some b, n, 0, 0, 0⟩) := by
  unfold ttRingbufInit
  exact if_neg hn

theorem init_success {n : BitVec w} (hn : n ≠ 0) (b : Nat) (st : RingbufSt w) :
    ringbufAct (.init (some b) n) st
      = some (⟨.success, none⟩, ⟨⟨some b, n, 0, 0, 0⟩, st.mem⟩) := by
  simp only [ringbufAct, ttRingbufInit_success hn]
  rfl

/-- An init that fails changes nothing. -/
theorem init_fails {b : Option Nat} {n : BitVec w} (h : ¬ (RingbufAct.init b n).Inits)
    (st : RingbufSt w) : ringbufAct (.init b n) st = some (⟨.invalidParam, none⟩, st) := by
  rcases b with _ | b
  · rfl
  · have hn : n = 0 := by
      by_contra hn
      exact h hn
    simp [ringbufAct, ttRingbufInit, hn]

namespace Layout

variable {b : Nat} {n : BitVec w} {mem₀ : Mem} {ws : List UInt8} {R : Nat} {st : RingbufSt w}

/-- One call that is not a successful init answers as the queue does and keeps the layout. -/
theorem act (h : Layout b n mem₀ ws R st) {q : Ring.Queue UInt8 n.toNat}
    (hq : q.items = ws.drop R) (a : RingbufAct w) (ha : ¬ a.Inits) :
    ∃ st', ringbufAct a st = some ((queueAct a q).1, st') ∧
      ((queueAct a q).1.err ≠ .success → st' = st) ∧
      Layout b n mem₀ (ws ++ (wrote a (queueAct a q).1).toList)
        (R + (delivered a (queueAct a q).1).toList.length) st' ∧
      (queueAct a q).2.items = (ws ++ (wrote a (queueAct a q).1).toList).drop
        (R + (delivered a (queueAct a q).1).toList.length) := by
  have hlen : q.items.length = ws.length - R := by rw [hq, List.length_drop]
  have hle := h.le
  have hbound := h.bound
  cases a with
  | init p m =>
      refine ⟨st, init_fails ha st, fun _ => rfl, ?_, ?_⟩
      · simpa [queueAct, wrote, delivered] using h
      · simpa [queueAct, wrote, delivered] using hq
  | call c =>
      cases c with
      | write x =>
          by_cases hfull : ws.length - R = n.toNat
          · rw [queueAct, queueCall_full x (hlen.trans hfull)]
            refine ⟨st, h.write_full hfull x, fun _ => rfl, ?_, ?_⟩
            · simpa [wrote, delivered] using h
            · simpa [wrote, delivered] using hq
          · have hroom : ws.length - R < n.toNat := by omega
            obtain ⟨hb, hpush⟩ := queueCall_room (q := q) x (by omega)
            obtain ⟨st', hcall, hst'⟩ := h.write_room hroom x
            rw [queueAct, hpush]
            refine ⟨st', hcall, fun hc => absurd rfl hc, ?_, ?_⟩
            · simpa [wrote, delivered] using hst'
            · simp [wrote, delivered, hq, List.drop_append_of_le_length hle]
      | read old =>
          by_cases hempty : ws.length = R
          · have hnil : q.items = [] := by simp [hq, hempty]
            rw [queueAct, queueCall_empty old hnil]
            refine ⟨st, h.read_empty hempty old, fun _ => rfl, ?_, ?_⟩
            · simpa [wrote, delivered] using h
            · simpa [wrote, delivered] using hq
          · have hR : R < ws.length := by omega
            obtain ⟨hb, hpop⟩ := queueCall_some (q := q) old (hq.trans (List.drop_eq_getElem_cons hR))
            obtain ⟨st', hcall, hst'⟩ := h.read_some hR old
            rw [queueAct, hpop]
            refine ⟨st', hcall, fun hc => absurd rfl hc, ?_, ?_⟩
            · simpa [wrote, delivered] using hst'
            · simp [wrote, delivered]

/-- **Any history without a successful init answers as the queue does**, and leaves the
layout of what it wrote and read. -/
theorem run (h : Layout b n mem₀ ws R st) {q : Ring.Queue UInt8 n.toNat}
    (hq : q.items = ws.drop R) (acts : List (RingbufAct w)) (hacts : ∀ a ∈ acts, ¬ a.Inits) :
    ∃ st', ringbufRun acts st = some ((queueRun acts q).1, st') ∧
      Layout b n mem₀ (ws ++ bytesWritten acts (queueRun acts q).1)
        (R + (bytesRead acts (queueRun acts q).1).length) st' ∧
      (queueRun acts q).2.items = (ws ++ bytesWritten acts (queueRun acts q).1).drop
        (R + (bytesRead acts (queueRun acts q).1).length) := by
  induction acts generalizing ws R st q with
  | nil =>
      refine ⟨st, rfl, ?_, ?_⟩
      · simpa using h
      · simpa using hq
  | cons a acts ih =>
      obtain ⟨st₁, hact, -, h₁, hq₁⟩ := h.act hq a (hacts a (by simp))
      obtain ⟨st', hrun, h', hq'⟩ := ih h₁ hq₁ fun a' ha' => hacts a' (by simp [ha'])
      refine ⟨st', ?_, ?_, ?_⟩
      · simp [ringbufRun, hact, hrun]
      · simpa [bytesWritten_cons, bytesRead_cons, Nat.add_assoc] using h'
      · simpa [bytesWritten_cons, bytesRead_cons, Nat.add_assoc] using hq'

end Layout

end Ringbuf

open Ringbuf

variable {w : Nat}

/--
**The ring buffer refines a bounded queue.** After one successful init, any sequence
of writes and reads is defined and answers exactly as a queue of capacity `size`
does.  After it, `tt_ringbuf_count`, `tt_ringbuf_is_empty` and `tt_ringbuf_is_full` are
the queue's, and any further call answers as the queue would and, where it fails,
leaves the structure and the memory as they are.  What was read is a prefix of what
was written.
-/
theorem ttRingbuf_refines_queue {n : BitVec w} (hn : n ≠ 0) {b : Nat} {mem : Mem}
    (hmem : mem.Maps b n.toNat) (rb₀ : TtRingbuf w) (calls : List RingbufCall) :
    ∃ rb obs st, ∃ q : Ring.Queue UInt8 n.toNat,
      ttRingbufInit (some rb₀) (some b) n = (.success, some rb) ∧
      ringbufRun (ofCalls w calls) ⟨rb, mem⟩ = some (obs, st) ∧
      queueRun (ofCalls w calls) .empty = (obs, q) ∧
      (ttRingbufCount (some st.rb)).toNat = q.items.length ∧
      ttRingbufIsEmpty (some st.rb) = decide (q.items = []) ∧
      ttRingbufIsFull (some st.rb) = decide (q.items.length = n.toNat) ∧
      (∀ c, ∃ st', ringbufCall c st = some ((queueCall c q).1, st') ∧
        ((queueCall c q).1.err ≠ .success → st' = st)) ∧
      bytesRead (ofCalls w calls) obs <+: bytesWritten (ofCalls w calls) obs := by
  have hacts : ∀ a ∈ ofCalls w calls, ¬ a.Inits := by
    intro a ha
    obtain ⟨c, -, rfl⟩ := List.mem_map.mp ha
    exact id
  obtain ⟨st, hrun, h, hq⟩ :=
    (Layout.init hn hmem).run (q := .empty) rfl (ofCalls w calls) hacts
  have hlen := congrArg List.length hq
  rw [List.length_drop] at hlen
  refine ⟨_, _, st, _, ttRingbufInit_success hn b rb₀, hrun, rfl, ?_, ?_, ?_, ?_, ?_⟩
  · rw [ttRingbufCount, h.count, hlen]
  · rw [h.isEmpty_eq, ← hlen]
    simp
  · rw [h.isFull_eq, hlen]
  · intro c
    obtain ⟨st', hact, hsame, -⟩ := h.act hq (.call c) id
    exact ⟨st', hact, hsame⟩
  · exact ⟨_, (queueRun_balance (ofCalls w calls) (.empty : Ring.Queue UInt8 n.toNat)).symm⟩

/-- One cell, written twice and read twice: the second write finds it full. -/
theorem ttRingbuf_refines_queue_one :
    ∃ rb obs st, ∃ q : Ring.Queue UInt8 1,
      ttRingbufInit (some .zero) (some 0) (1 : BitVec 8) = (.success, some rb) ∧
      ringbufRun (ofCalls 8 [.write 5, .write 6, .read 0, .read 9]) ⟨rb, ⟨fun _ => some 0, []⟩⟩
        = some (obs, st) ∧
      queueRun (ofCalls 8 [.write 5, .write 6, .read 0, .read 9]) .empty = (obs, q) := by
  have hmem : Mem.Maps ⟨fun _ => some 0, []⟩ 0 (1 : BitVec 8).toNat := fun _ _ => rfl
  obtain ⟨rb, obs, st, q, hinit, hrun, hq, -⟩ :=
    ttRingbuf_refines_queue (by decide) hmem .zero [.write 5, .write 6, .read 0, .read 9]
  exact ⟨rb, obs, st, q, hinit, hrun, hq⟩

/-! ### Histories with any inits -/

namespace Ringbuf

/-- What a call answers before the first successful init. -/
def refused : RingbufAct w → RingbufObs
  | .init _ _ => ⟨.invalidParam, none⟩
  | .call (.write _) => ⟨.bufferFull, none⟩
  | .call (.read old) => ⟨.bufferEmpty, some old⟩

/-- A zero-initialised structure is full and empty at once, and every call fails. -/
theorem zero_act (mem : Mem) (a : RingbufAct w) (ha : ¬ a.Inits) :
    ringbufAct a ⟨.zero, mem⟩ = some (refused a, ⟨.zero, mem⟩) := by
  cases a with
  | init b n => exact init_fails ha _
  | call c =>
      cases c with
      | write x => rfl
      | read old => rfl

theorem zero_run (mem : Mem) (acts : List (RingbufAct w)) (hacts : ∀ a ∈ acts, ¬ a.Inits) :
    ringbufRun acts ⟨.zero, mem⟩ = some (acts.map refused, ⟨.zero, mem⟩) := by
  induction acts with
  | nil => rfl
  | cons a acts ih =>
      have hact := zero_act mem a (hacts a (by simp))
      have hrun := ih fun a' ha' => hacts a' (by simp [ha'])
      simp [ringbufRun, hact, hrun]

theorem run_append (acts acts' : List (RingbufAct w)) (st : RingbufSt w) :
    ringbufRun (acts ++ acts') st = (do
      let (obs, st) ← ringbufRun acts st
      let (obs', st) ← ringbufRun acts' st
      return (obs ++ obs', st)) := by
  induction acts generalizing st with
  | nil =>
      rcases h : ringbufRun acts' st with _ | ⟨obs, st'⟩
      · simp [ringbufRun, h]
      · simp [ringbufRun, h]
  | cons a acts ih =>
      rcases h : ringbufAct a st with _ | ⟨o, st₁⟩
      · simp [ringbufRun, h]
      · simp only [List.cons_append, ringbufRun, h, ih, Option.bind_eq_bind, Option.bind_some]
        rcases h₁ : ringbufRun acts st₁ with _ | ⟨obs, st₂⟩
        · simp
        · rcases h₂ : ringbufRun acts' st₂ with _ | ⟨obs', st₃⟩
          · simp [h₂]
          · simp [h₂]

/-- A history has no successful init, or a last one. -/
theorem last_init (acts : List (RingbufAct w)) :
    (∀ a ∈ acts, ¬ a.Inits) ∨ ∃ pre b n post, acts = pre ++ .init (some b) n :: post ∧ n ≠ 0 ∧
      ∀ a ∈ post, ¬ a.Inits := by
  induction acts with
  | nil => exact Or.inl (by simp)
  | cons a acts ih =>
      rcases ih with hnone | ⟨pre, b, n, post, rfl, hn, hpost⟩
      · by_cases ha : a.Inits
        · rcases a with ⟨_ | b, n⟩ | c
          · exact absurd ha id
          · exact Or.inr ⟨[], b, n, acts, rfl, ha, hnone⟩
          · exact absurd ha id
        · refine Or.inl ?_
          intro a' ha'
          rcases List.mem_cons.mp ha' with rfl | ha'
          · exact ha
          · exact hnone a' ha'
      · exact Or.inr ⟨a :: pre, b, n, post, rfl, hn, hpost⟩

/-- What follows the last successful init runs in its layout, on the memory it found. -/
theorem run_after_init {st₀ : RingbufSt w} {pre post : List (RingbufAct w)} {b : Nat} {n : BitVec w}
    {obs₁ : List RingbufObs} {st₁ : RingbufSt w} (hpre : ringbufRun pre st₀ = some (obs₁, st₁))
    (hn : n ≠ 0) (hmap : st₁.mem.Maps b n.toNat) (hpost : ∀ a ∈ post, ¬ a.Inits) :
    ∃ obs₂ st, ringbufRun (pre ++ .init (some b) n :: post) st₀
        = some (obs₁ ++ ⟨.success, none⟩ :: obs₂, st) ∧
      Layout b n st₁.mem (bytesWritten post obs₂) (bytesRead post obs₂).length st := by
  obtain ⟨st, hrun, h, -⟩ := (Layout.init hn hmap).run (q := .empty) rfl post hpost
  refine ⟨_, st, ?_, by simpa using h⟩
  simp only [run_append, hpre, ringbufRun, init_success hn, hrun, Option.bind_eq_bind,
    Option.bind_some]
  rfl

/-- Every history is defined, and no call maps or unmaps memory. -/
theorem run_defined {mem : Mem} (k : Nat) :
    ∀ acts : List (RingbufAct w), acts.length ≤ k →
      (∀ b n, .init (some b) n ∈ acts → mem.Maps b n.toNat) →
      ∃ obs st, ringbufRun acts ⟨.zero, mem⟩ = some (obs, st) ∧
        ∀ a, (st.mem.byte a).isSome = (mem.byte a).isSome := by
  -- by induction on the length, as everything before the last init is shorter
  induction k with
  | zero =>
      intro acts hk _
      rw [List.eq_nil_of_length_eq_zero (Nat.le_zero.mp hk)]
      exact ⟨[], _, rfl, fun _ => rfl⟩
  | succ k ih =>
      intro acts hk hmap
      rcases last_init acts with hnone | ⟨pre, b, n, post, rfl, hn, hpost⟩
      · exact ⟨_, _, zero_run mem acts hnone, fun _ => rfl⟩
      · have hlen : pre.length ≤ k := by
          simp only [List.length_append, List.length_cons] at hk
          omega
        obtain ⟨obs₁, st₁, hpre, hsame⟩ := ih pre hlen fun b' n' hm => hmap b' n' (by simp [hm])
        have hmap₁ : st₁.mem.Maps b n.toNat := by
          intro j hj
          rw [hsame]
          exact hmap b n (by simp) j hj
        obtain ⟨obs₂, st, hrun, h⟩ := run_after_init hpre hn hmap₁ hpost
        exact ⟨_, st, hrun, fun a => (h.cells.same a).trans (hsame a)⟩

/-- The physical state in terms of what was written (`ws`) and how many bytes were read (`R`)
since an init with `b` and `n` on the memory `mem₀`. -/
structure ClosedForm (b : Nat) (n : BitVec w) (mem₀ : Mem) (ws : List UInt8) (R : Nat)
    (st : RingbufSt w) : Prop where
  buffer : st.rb.buffer = some b
  size : st.rb.size = n
  head : st.rb.head.toNat = ws.length % n.toNat
  tail : st.rb.tail.toNat = R % n.toNat
  count : st.rb.count.toNat = ws.length - R
  read_le : R ≤ ws.length
  count_le : ws.length - R ≤ n.toNat
  /-- A cell holds the latest byte whose number falls on it, or what it held at init. -/
  cell : ∀ j < n.toNat,
    ((∀ k < ws.length, k % n.toNat ≠ j) ∧ st.mem.byte (b + j) = mem₀.byte (b + j)) ∨
    ∃ k, ∃ hk : k < ws.length, k % n.toNat = j ∧
      (∀ k', k < k' → k' < ws.length → k' % n.toNat ≠ j) ∧ st.mem.byte (b + j) = some ws[k]
  /-- Nothing outside the buffer has been written. -/
  outside : ∀ a, (∀ j < n.toNat, a ≠ b + j) → st.mem.byte a = mem₀.byte a
  /-- Every access was to `buffer[j]` with `j` less than the size. -/
  touched : ∃ js : List Nat, (∀ j ∈ js, j < n.toNat) ∧
    st.mem.touched = mem₀.touched ++ js.map (b + ·)
  /-- No index or count the next call computes wraps. -/
  head_succ : (st.rb.head + 1).toNat = st.rb.head.toNat + 1
  tail_succ : (st.rb.tail + 1).toNat = st.rb.tail.toNat + 1
  count_succ : st.rb.count ≠ st.rb.size → (st.rb.count + 1).toNat = st.rb.count.toNat + 1
  count_pred : st.rb.count ≠ 0 → (st.rb.count - 1).toNat + 1 = st.rb.count.toNat

theorem Layout.closedForm {b : Nat} {n : BitVec w} {mem₀ : Mem} {ws : List UInt8} {R : Nat}
    {st : RingbufSt w} (h : Layout b n mem₀ ws R st) : ClosedForm b n mem₀ ws R st := by
  have hpos : 0 < n.toNat := toNat_pos h.size_ne
  have hle : st.rb.count.toNat ≤ n.toNat := by
    have hbound := h.bound
    rw [h.count]
    omega
  refine ⟨h.buffer, h.size, h.head, h.tail, h.count, h.le, h.count ▸ hle, ?_, h.cells.outside,
    h.cells.touched, ?_, ?_, ?_, ?_⟩
  · intro j hj
    rw [h.cells.cell j hj]
    rcases Ring.ringCell_cases (fun j => mem₀.byte (b + j)) n.toNat (ws.map some) j
      with ⟨hnone, hcell⟩ | ⟨k, hk, hkj, hlast, hcell⟩
    · exact Or.inl ⟨by simpa using hnone, hcell⟩
    · refine Or.inr ⟨k, by simpa using hk, hkj, by simpa using hlast, ?_⟩
      rw [hcell, List.getElem_map]
  · exact toNat_succ (n := n) (h.head ▸ Nat.mod_lt _ hpos)
  · exact toNat_succ (n := n) (h.tail ▸ Nat.mod_lt _ hpos)
  · intro hne
    have hne' : st.rb.count.toNat ≠ n.toNat := fun hc => hne (h.size ▸ BitVec.eq_of_toNat_eq hc)
    exact toNat_succ (n := n) (by omega)
  · intro hne
    exact toNat_pred (toNat_pos hne)

end Ringbuf

/--
**The state of a ring buffer after any history.** Every history of inits, writes and
reads from a zero-initialised structure is defined.  Before the first successful
init every call is refused and nothing changes; a failing init never changes
anything; after a successful one, up to the next, the state is the closed form of
what was written and read since.
-/
theorem ttRingbuf_closedForm {mem : Mem} {acts : List (RingbufAct w)}
    (hmap : ∀ b n, .init (some b) n ∈ acts → mem.Maps b n.toNat) :
    ∃ obs st, ringbufRun acts ⟨.zero, mem⟩ = some (obs, st) ∧
      ((∀ a ∈ acts, ¬ a.Inits) → obs = acts.map refused ∧ st = ⟨.zero, mem⟩) ∧
      (∀ b n, b = none ∨ n = 0 →
        ringbufAct (.init b n) st = some (⟨.invalidParam, none⟩, st)) ∧
      ∀ pre b n post, acts = pre ++ .init (some b) n :: post → n ≠ 0 →
        (∀ a ∈ post, ¬ a.Inits) → ∃ obs₁ st₁ obs₂,
          ringbufRun pre ⟨.zero, mem⟩ = some (obs₁, st₁) ∧ obs = obs₁ ++ ⟨.success, none⟩ :: obs₂ ∧
          ClosedForm b n st₁.mem (bytesWritten post obs₂) (bytesRead post obs₂).length st := by
  obtain ⟨obs, st, hrun, -⟩ := run_defined acts.length acts (Nat.le_refl _) hmap
  refine ⟨obs, st, hrun, ?_, ?_, ?_⟩
  · intro hnone
    rw [zero_run mem acts hnone] at hrun
    cases hrun
    exact ⟨rfl, rfl⟩
  · intro b n hbad
    refine init_fails ?_ st
    rcases hbad with rfl | rfl
    · exact id
    · rcases b with _ | b
      · exact id
      · exact fun h => h rfl
  · rintro pre b n post rfl hn hpost
    obtain ⟨obs₁, st₁, hpre, hsame⟩ :=
      run_defined pre.length pre (Nat.le_refl _) fun b' n' hm => hmap b' n' (by simp [hm])
    have hmap₁ : st₁.mem.Maps b n.toNat := by
      intro j hj
      rw [hsame]
      exact hmap b n (by simp) j hj
    obtain ⟨obs₂, st', hrun', h⟩ := run_after_init hpre hn hmap₁ hpost
    rw [hrun] at hrun'
    cases hrun'
    exact ⟨obs₁, st₁, obs₂, hpre, rfl, h.closedForm⟩

/-- A failed init, a write that is refused, a two-cell buffer, and a new one on one cell. -/
theorem ttRingbuf_closedForm_reinit :
    ∃ obs st, ringbufRun [.init none 2, .call (.write 1), .init (some 4) (2 : BitVec 8),
        .call (.write 7), .init (some 5) 1, .call (.write 8)] ⟨.zero, ⟨fun _ => some 0, []⟩⟩
      = some (obs, st) := by
  obtain ⟨obs, st, hrun, -⟩ :=
    @ttRingbuf_closedForm 8 ⟨fun _ => some 0, []⟩
      [.init none 2, .call (.write 1), .init (some 4) 2, .call (.write 7), .init (some 5) 1,
        .call (.write 8)] (fun _ _ _ _ _ => rfl)
  exact ⟨obs, st, hrun⟩

end TinyTools
