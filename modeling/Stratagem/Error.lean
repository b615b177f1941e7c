import Stratagem.Algebraic.Arithmetic

/-!
# Errors

Why a goal, a rewriting or a tactic did not answer. Interrupts, refusals and ordinary failures
are tactic exceptions: an alternative may be tried after them. Invalid goals and parameters and
internal errors always reach the caller.
-/
namespace Stratagem

/-- The cause of a failure. -/
inductive Error where
  /-- Cancellation was requested. -/
  | canceled
  /-- A time budget, in milliseconds, is spent. -/
  | timeout (budget : Nat)
  /-- The terms take more than a number of bytes. -/
  | memoryExceeded (limit : Nat)
  /-- More steps were taken than allowed. -/
  | stepsExceeded (limit : Nat)
  /-- A tactic cannot work on the goal. -/
  | unsupported (reason : String)
  /-- A tactic failed. -/
  | tacticFailed (reason : String)
  /-- A goal cannot be set up as asked. -/
  | invalidGoal (reason : String)
  /-- A parameter is unknown or has the wrong kind. -/
  | invalidParameter (name reason : String)
  /-- An operation on algebraic numbers failed. -/
  | algebraic (cause : AlgebraicError)
  /-- An internal contract is broken. -/
  | internal (reason : String)
  deriving DecidableEq, Repr

namespace Error

/-- The wording of an error. -/
def message : Error → String
  | canceled => "canceled"
  | timeout budget => s!"timeout after {budget} ms"
  | memoryExceeded limit => s!"max. memory exceeded (limit {limit} bytes)"
  | stepsExceeded limit => s!"max. steps exceeded (limit {limit})"
  | unsupported reason | tacticFailed reason => reason
  | invalidGoal reason => "invalid goal: " ++ reason
  | invalidParameter name reason => "invalid parameter '" ++ name ++ "': " ++ reason
  | algebraic cause => "algebraic number error: " ++ cause.message
  | internal reason => "internal error: " ++ reason

/-- Whether the error is an interrupt: a cancellation or a spent budget. -/
def isInterrupt : Error → Bool
  | canceled | timeout _ | memoryExceeded _ | stepsExceeded _ => true
  | _ => false

/-- Whether an alternative may be tried after the error. -/
def isTacticException : Error → Bool
  | canceled | timeout _ | memoryExceeded _ | stepsExceeded _ => true
  | unsupported _ | tacticFailed _ | algebraic _ => true
  | invalidGoal _ | invalidParameter .. | internal _ => false

end Error
end Stratagem
