/-
Clients that call one function after the other.

`Sequential` executes any calls.  Here a call is made only if `ok` admits it, which may
look at the calls before it, at the state it starts in and at what it does, and between
two calls the environment may change the state as `env` says.
-/
import TinyTools.Lib.Locked

namespace Interleave

variable {S : Sig} {τ χ σ κ α : Type}

/-- Admitted calls, executed one after the other. -/
inductive Calls (S' : Sys S τ χ σ κ α) (env : σ → σ → Prop)
    (ok : List (LogEntry S τ κ α) → σ → LogEntry S τ κ α → Prop) (s₀ : σ) :
    List (LogEntry S τ κ α) → σ → Prop
  | nil : Calls S' env ok s₀ [] s₀
  | env {L : List (LogEntry S τ κ α)} {s s' : σ} (h : Calls S' env ok s₀ L s)
      (henv : env s s') : Calls S' env ok s₀ L s'
  | call {L : List (LogEntry S τ κ α)} {s s' : σ} {e : LogEntry S τ κ α}
      (h : Calls S' env ok s₀ L s) (hok : ok L s e)
      (hrun : S'.Run e.thread (S'.body e.call) s e.done e.val s') :
      Calls S' env ok s₀ (L ++ [e]) s'

namespace Calls

variable {S' : Sys S τ χ σ κ α} {env : σ → σ → Prop}
  {ok : List (LogEntry S τ κ α) → σ → LogEntry S τ κ α → Prop} {s₀ s : σ}
  {L : List (LogEntry S τ κ α)}

/-- What holds at the start and is kept by the environment and by every admitted call. -/
theorem invariant {P : List (LogEntry S τ κ α) → σ → Prop} (hstart : P [] s₀)
    (henv : ∀ L s s', P L s → env s s' → P L s')
    (hcall : ∀ L s s' e, P L s → ok L s e → S'.Run e.thread (S'.body e.call) s e.done e.val s' →
      P (L ++ [e]) s')
    (h : Calls S' env ok s₀ L s) : P L s := by
  induction h with
  | nil => exact hstart
  | env _ he ih => exact henv _ _ _ ih he
  | call _ hok hrun ih => exact hcall _ _ _ _ ih hok hrun

end Calls

end Interleave
