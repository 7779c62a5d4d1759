/-
The ring buffer (`tt_ringbuf.c`).

`size_t` is a bit vector of any width `w`, so every addition and subtraction is
taken modulo `2^w`.  A pointer that may be `NULL` is an `Option`; a pointer to a
caller's variable is its content, so `ttRingbufRead` takes what `*data` holds and
gives back what it holds afterwards.

Where C leaves the behaviour undefined, the functions are: a byte that does not
belong to an object, an access through `NULL`, a remainder by zero all answer
`none`.  A result `some _` is therefore also the proof that the call was defined.
-/
import TinyTools.Types
import Mathlib.Logic.Function.Basic

namespace TinyTools

/-! ### Memory -/

/-- Bytes by address, `none` where there is no object, and the addresses accessed so far. -/
structure Mem : Type where
  byte : Nat → Option UInt8
  touched : List Nat

namespace Mem

/-- Read `p[i]`. -/
def load (m : Mem) (p : Option Nat) (i : Nat) : Option (UInt8 × Mem) := do
  let base ← p
  let b ← m.byte (base + i)
  return (b, { m with touched := m.touched ++ [base + i] })

/-- Write `p[i]`. -/
def store (m : Mem) (p : Option Nat) (i : Nat) (b : UInt8) : Option Mem := do
  let base ← p
  let _ ← m.byte (base + i)
  return ⟨Function.update m.byte (base + i) (some b), m.touched ++ [base + i]⟩

/-- Every one of the `n` bytes at `b` belongs to an object. -/
def Maps (m : Mem) (b n : Nat) : Prop := ∀ j < n, (m.byte (b + j)).isSome

end Mem

/-- `a % b`, undefined for a zero divisor. -/
def umod {w : Nat} (a b : BitVec w) : Option (BitVec w) := if b = 0 then none else some (a % b)

/-! ### The functions -/

/-- `tt_ringbuf_t`. -/
structure TtRingbuf (w : Nat) : Type where
  /-- Pointer to buffer memory. -/
  buffer : Option Nat
  /-- Buffer size. -/
  size : BitVec w
  /-- Write index. -/
  head : BitVec w
  /-- Read index. -/
  tail : BitVec w
  /-- Number of items in buffer. -/
  count : BitVec w
  deriving DecidableEq

variable {w : Nat}

/-- A zero-initialised `tt_ringbuf_t`. -/
def TtRingbuf.zero : TtRingbuf w := ⟨none, 0, 0, 0, 0⟩

/-- `tt_ringbuf_init`. -/
def ttRingbufInit (rb : Option (TtRingbuf w)) (buffer : Option Nat) (size : BitVec w) :
    TtError × Option (TtRingbuf w) :=
  match rb, buffer with
  | some _, some b =>
      if size = 0 then (.invalidParam, rb)
      else (.success, some { buffer := some b, size := size, head := 0, tail := 0, count := 0 })
  | _, _ => (.invalidParam, rb)

/-- `tt_ringbuf_count`. -/
def ttRingbufCount (rb : Option (TtRingbuf w)) : BitVec w :=
  match rb with
  | some rb => rb.count
  | none => 0

/-- `tt_ringbuf_is_empty`. -/
def ttRingbufIsEmpty (rb : Option (TtRingbuf w)) : Bool :=
  match rb with
  | some rb => decide (rb.count = 0)
  | none => true

/-- `tt_ringbuf_is_full`. -/
def ttRingbufIsFull (rb : Option (TtRingbuf w)) : Bool :=
  match rb with
  | some rb => decide (rb.count = rb.size)
  | none => true

/-- `tt_ringbuf_write`. -/
def ttRingbufWrite (rb : Option (TtRingbuf w)) (data : UInt8) (mem : Mem) :
    Option (TtError × Option (TtRingbuf w) × Mem) :=
  match rb with
  | none => some (.nullPointer, none, mem)
  | some rb =>
      if ttRingbufIsFull (some rb) then some (.bufferFull, some rb, mem)
      else do
        let mem ← mem.store rb.buffer rb.head.toNat data
        let head ← umod (rb.head + 1) rb.size
        return (.success, some { rb with head := head, count := rb.count + 1 }, mem)

/-- `tt_ringbuf_read`. -/
def ttRingbufRead (rb : Option (TtRingbuf w)) (data : Option UInt8) (mem : Mem) :
    Option (TtError × Option (TtRingbuf w) × Option UInt8 × Mem) :=
  match rb, data with
  | some rb, some old =>
      if ttRingbufIsEmpty (some rb) then some (.bufferEmpty, some rb, some old, mem)
      else do
        let (b, mem) ← mem.load rb.buffer rb.tail.toNat
        let tail ← umod (rb.tail + 1) rb.size
        return (.success, some { rb with tail := tail, count := rb.count - 1 }, some b, mem)
  | _, _ => some (.nullPointer, rb, data, mem)

/-! ### Histories of calls on one ring buffer -/

/-- A write, or a read into a variable that holds `data`. -/
inductive RingbufCall : Type
  | write (data : UInt8)
  | read (data : UInt8)
  deriving DecidableEq

/-- Any call that changes a ring buffer. -/
inductive RingbufAct (w : Nat) : Type
  | init (buffer : Option Nat) (size : BitVec w)
  | call (c : RingbufCall)
  deriving DecidableEq

/-- The structure and the memory behind it. -/
structure RingbufSt (w : Nat) : Type where
  rb : TtRingbuf w
  mem : Mem

/-- What a call gives back: its code, and what `*data` holds after a read. -/
structure RingbufObs : Type where
  err : TtError
  data : Option UInt8
  deriving DecidableEq

/-- One write or read through a pointer to the structure. -/
def ringbufCall : RingbufCall → RingbufSt w → Option (RingbufObs × RingbufSt w)
  | .write data, st => do
      let (err, rb, mem) ← ttRingbufWrite (some st.rb) data st.mem
      return (⟨err, none⟩, ⟨← rb, mem⟩)
  | .read data, st => do
      let (err, rb, data, mem) ← ttRingbufRead (some st.rb) (some data) st.mem
      return (⟨err, data⟩, ⟨← rb, mem⟩)

/-- One call of any kind. -/
def ringbufAct : RingbufAct w → RingbufSt w → Option (RingbufObs × RingbufSt w)
  | .init buffer size, st => do
      let (err, rb) := ttRingbufInit (some st.rb) buffer size
      return (⟨err, none⟩, ⟨← rb, st.mem⟩)
  | .call c, st => ringbufCall c st

/-- A sequence of calls, each on the state the one before left. -/
def ringbufRun : List (RingbufAct w) → RingbufSt w → Option (List RingbufObs × RingbufSt w)
  | [], st => some ([], st)
  | a :: acts, st => do
      let (o, st) ← ringbufAct a st
      let (obs, st) ← ringbufRun acts st
      return (o :: obs, st)

/-- A history of writes and reads only. -/
def ofCalls (w : Nat) (calls : List RingbufCall) : List (RingbufAct w) := calls.map .call

/-- The byte a call wrote, if it is a write that succeeded. -/
def wrote : RingbufAct w → RingbufObs → Option UInt8
  | .call (.write data), ⟨.success, _⟩ => some data
  | _, _ => none

/-- The byte a call delivered, if it is a read that succeeded. -/
def delivered : RingbufAct w → RingbufObs → Option UInt8
  | .call (.read _), ⟨.success, data⟩ => data
  | _, _ => none

/-- The bytes the successful writes of a history were given. -/
def bytesWritten (acts : List (RingbufAct w)) (obs : List RingbufObs) : List UInt8 :=
  (acts.zip obs).filterMap fun ao => wrote ao.1 ao.2

/-- The bytes the successful reads of a history delivered. -/
def bytesRead (acts : List (RingbufAct w)) (obs : List RingbufObs) : List UInt8 :=
  (acts.zip obs).filterMap fun ao => delivered ao.1 ao.2

/-- An init that succeeds. -/
def RingbufAct.Inits : RingbufAct w → Prop
  | .init (some _) size => size ≠ 0
  | _ => False

end TinyTools
