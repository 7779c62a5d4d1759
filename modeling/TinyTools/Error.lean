/-
The error context (`tt_error.c`).

Each access to a field of `error_ctx` is one step, and so is a call through a callback
pointer.  `error_ctx.mutex` is reached only through the mutex functions, which are
primitives of these functions: what happens inside them is left to the machine
(`errorSys`), or to a link with the Linux implementation (`errorLinuxSys`).
-/
import TinyTools.Lib.Nested
import TinyTools.Platform.Linux.Mutex

namespace TinyTools

open Interleave

/-- `tt_error_context_t` without its mutex.  A callback is named by its address, `none` being
`NULL`. -/
structure TtErrorContext (F : Type) : Type where
  lastError : TtError
  callback : Option F
  initialized : Bool
  deriving DecidableEq

/-- `error_ctx` at program start. -/
def TtErrorContext.zero {F : Type} : TtErrorContext F := ⟨.success, none, false⟩

/-- What the functions do to `error_ctx` in one step, and calling a callback. -/
inductive ErrorOp (F : Type) : Type
  | readInitialized
  | writeInitialized (b : Bool)
  | readLastError
  | writeLastError (e : TtError)
  | readCallback
  | writeCallback (callback : Option F)
  | invoke (callback : F) (e : TtError)
  deriving DecidableEq

@[reducible] def ErrorOp.Res {F : Type} : ErrorOp F → Type
  | .readInitialized => Bool
  | .readLastError => TtError
  | .readCallback => Option F
  | .writeInitialized _ | .writeLastError _ | .writeCallback _ | .invoke _ _ => Unit

abbrev errorOpSig (F : Type) : Sig := ⟨ErrorOp F, ErrorOp.Res⟩

/-- Fields of `error_ctx`, and the mutex functions on `&error_ctx.mutex`. -/
abbrev errorSig (F : Type) : Sig := (errorOpSig F).sum (mutexSig Unit)

variable {F : Type}

/-! ### The functions -/

/-- `tt_error_init`. -/
def ttErrorInit : Prog (errorSig F) TtError :=
  .step (.inl .readInitialized) fun (initialized : Bool) =>
  if initialized then .ret .success else
  .step (.inr (.init (some ()))) fun (result : TtError) =>
  if result ≠ .success then .ret result else
  .step (.inl (.writeLastError .success)) fun _ =>
  .step (.inl (.writeCallback none)) fun _ =>
  .step (.inl (.writeInitialized true)) fun _ =>
  .ret .success

/-- `tt_error_deinit`. -/
def ttErrorDeinit : Prog (errorSig F) TtError :=
  .step (.inl .readInitialized) fun (initialized : Bool) =>
  if !initialized then .ret .notInitialized else
  .step (.inr (.lock (some ()))) fun (result : TtError) =>
  if result ≠ .success then .ret result else
  .step (.inl (.writeCallback none)) fun _ =>
  .step (.inl (.writeInitialized false)) fun _ =>
  .step (.inr (.unlock (some ()))) fun (result : TtError) =>
  if result ≠ .success then .ret result else
  .ret .success

/-- `tt_error_get_last`. -/
def ttErrorGetLast : Prog (errorSig F) TtError :=
  .step (.inl .readInitialized) fun (initialized : Bool) =>
  if !initialized then .ret .notInitialized else
  .step (.inr (.lock (some ()))) fun (result : TtError) =>
  if result ≠ .success then .ret result else
  .step (.inl .readLastError) fun (error : TtError) =>
  .step (.inr (.unlock (some ()))) fun (result : TtError) =>
  if result ≠ .success then .ret result else
  .ret error

/-- `tt_error_set_last`. -/
def ttErrorSetLast (error : TtError) : Prog (errorSig F) TtError :=
  .step (.inl .readInitialized) fun (initialized : Bool) =>
  if !initialized then .ret .notInitialized else
  .step (.inr (.lock (some ()))) fun (result : TtError) =>
  if result ≠ .success then .ret result else
  .step (.inl (.writeLastError error)) fun _ =>
  .step (.inl .readCallback) fun (callback : Option F) =>
  .step (.inr (.unlock (some ()))) fun (result : TtError) =>
  if result ≠ .success then .ret result else
  match callback with
  | some f =>
      if error ≠ .success then
        .step (.inl (.invoke f error)) fun _ => .ret .success
      else .ret .success
  | none => .ret .success

/-- `tt_error_is_success`. -/
def ttErrorIsSuccess : Prog (errorSig F) Bool := do
  return decide ((← ttErrorGetLast) = .success)

/-- `tt_error_clear`. -/
def ttErrorClear : Prog (errorSig F) TtError := ttErrorSetLast .success

/-- `tt_error_register_callback`. -/
def ttErrorRegisterCallback (callback : Option F) : Prog (errorSig F) TtError :=
  .step (.inl .readInitialized) fun (initialized : Bool) =>
  if !initialized then .ret .notInitialized else
  .step (.inr (.lock (some ()))) fun (result : TtError) =>
  if result ≠ .success then .ret result else
  .step (.inl (.writeCallback callback)) fun _ =>
  .step (.inr (.unlock (some ()))) fun (result : TtError) =>
  if result ≠ .success then .ret result else
  .ret .success

/-! ### Calls and machines -/

/-- The functions that touch `error_ctx`. -/
inductive ErrorCall (F : Type) : Type
  | init
  | deinit
  | getLast
  | setLast (error : TtError)
  | isSuccess
  | clear
  | registerCallback (callback : Option F)
  deriving DecidableEq

def errorBody : ErrorCall F → Prog (errorSig F) TtVal
  | .init => do return .err (← ttErrorInit)
  | .deinit => do return .err (← ttErrorDeinit)
  | .getLast => do return .err (← ttErrorGetLast)
  | .setLast error => do return .err (← ttErrorSetLast error)
  | .isSuccess => do return .bool (← ttErrorIsSuccess)
  | .clear => do return .err (← ttErrorClear)
  | .registerCallback callback => do return .err (← ttErrorRegisterCallback callback)

/-- One step on `error_ctx`.  A callback is some other code and leaves the context alone. -/
def errorExec {τ χ : Type} (_ : χ) (_ : τ) :
    (p : ErrorOp F) → TtErrorContext F → Option (p.Res × TtErrorContext F)
  | .readInitialized, s => some (s.initialized, s)
  | .writeInitialized b, s => some ((), { s with initialized := b })
  | .readLastError, s => some (s.lastError, s)
  | .writeLastError e, s => some ((), { s with lastError := e })
  | .readCallback, s => some (s.callback, s)
  | .writeCallback callback, s => some ((), { s with callback := callback })
  | .invoke _ _, s => some ((), s)

def errorMachine (F τ χ : Type) : Machine (errorOpSig F) τ χ (TtErrorContext F) where
  exec := errorExec

/-- Threads calling the error functions over a mutex that works. -/
def errorSys (F τ : Type) :
    Sys (errorSig F) τ Unit (TtErrorContext F × Option τ) (ErrorCall F) TtVal where
  toMachine := (errorMachine F τ Unit).sum (lockMachine τ Unit)
  body := errorBody

/-- Threads calling the error functions over a mutex whose functions may fail. -/
def errorAnySys (F τ : Type) :
    Sys (errorSig F) τ (Unit × ((c : MutexCall Unit) → c.Res)) (TtErrorContext F) (ErrorCall F)
      TtVal where
  toMachine := (errorMachine F τ Unit).withAny (mutexSig Unit)
  body := errorBody

/-- The primitive that hands control to a callback. -/
def callsBack : (errorSig F).Op → Bool
  | .inl (.invoke _ _) => true
  | _ => false

/-- What a client does, in its own code and in its callbacks. -/
abbrev ErrorScript (F : Type) := Script (errorSig F) (ErrorCall F) TtVal

def errorScript : ErrorScript F → Prog ((markSig (ErrorCall F) TtVal).sum (errorSig F)) Unit :=
  Script.prog callsBack errorBody

/-- One thread and its callbacks, over a mutex that works. -/
def errorNested (F τ : Type) : Machine ((markSig (ErrorCall F) TtVal).sum (errorSig F)) τ Unit
    (TtErrorContext F × Option τ) :=
  (errorSys F τ).toMachine.marked (ErrorCall F) TtVal

/-- The error functions down to the steps of the Linux mutex functions they call. -/
abbrev errorLinuxSig (F : Type) : Sig := (errorOpSig F).sum (linuxMutexSig Unit)

def errorLinuxSys (F τ : Type) :
    Sys (errorLinuxSig F) τ LinuxChoice (TtErrorContext F × LinuxMutexes Unit τ) (ErrorCall F)
      TtVal where
  toMachine := (errorMachine F τ LinuxChoice).sum (linuxMutexMachine Unit τ)
  body c := (errorBody c).link linuxMutex

end TinyTools
