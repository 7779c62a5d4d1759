/-
The error codes every module returns (`tt_types.h`), and addresses.
-/
import Mathlib.Logic.Basic

namespace TinyTools

/-- `tt_error_t`. -/
inductive TtError : Type
  | success
  | nullPointer
  | invalidParam
  | bufferFull
  | bufferEmpty
  | memory
  | timeout
  | busy
  | notInitialized
  | platformSpecific
  | mutexError
  | mutexInit
  | mutexDestroy
  | mutexLock
  | mutexUnlock
  | notFound
  | threadCreate
  | threadJoin
  | threadPriority
  | threadSleep
  | threadActive
  | threadDetach
  | platformInit
  | alreadyInitialized
  | platformNotSupported
  | notImplemented
  | unknown
  deriving DecidableEq, Repr, Inhabited

/-- A returned `tt_error_t` or `bool`, as one type. -/
inductive TtVal : Type
  | err (e : TtError)
  | bool (b : Bool)
  deriving DecidableEq

/-- An address other than `NULL`. -/
abbrev Addr := Nat

end TinyTools
