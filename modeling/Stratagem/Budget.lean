import Stratagem.Error
import Stratagem.Term.Store

/-!
# Budgets

What can interrupt a computation: a request to cancel it, a time budget, and limits on the memory
of the terms and on the steps of a rewriting. Time is not modelled: a time budget of zero is spent
at once and any other is never spent. An `Attempt` is a computation that can be interrupted.
-/
namespace Stratagem

/-- Limits on memory and steps. -/
structure Limits where
  /-- Most bytes that the terms may take. -/
  maxMemory : Option Nat := none
  /-- Most steps of one rewriting. -/
  maxSteps : Option Nat := none
  deriving DecidableEq, Repr

/-- The circumstances in which a computation runs. -/
structure Context where
  /-- Whether cancellation was requested. -/
  canceled : Bool := false
  /-- Limits on memory and steps. -/
  limits : Limits := {}
  /-- Time budget in milliseconds. -/
  deadline : Option Nat := none
  deriving DecidableEq, Repr

/-- Bytes that one term is taken to occupy. -/
def Store.bytesPerTerm : Nat := 352

/-- Bytes that the terms of a store are taken to occupy. -/
def Store.memory (s : Store) : Nat := s.size * Store.bytesPerTerm

namespace Context

/-- Circumstances in which nothing interrupts. -/
def unbounded : Context := {}

/-- The tighter of two optional time budgets, the first when they are equal. -/
def tightest : Option Nat → Option Nat → Option Nat
  | some a, some b => some (if a ≤ b then a else b)
  | some a, none => some a
  | none, b => b

/-- Fail if the computation is canceled, out of time or over its memory, in this order. -/
def check (context : Context) (s : Store) : Except Error Unit :=
  if context.canceled then .error .canceled
  else if context.deadline = some 0 then .error (.timeout 0)
  else
    match context.limits.maxMemory with
    | some limit => if limit < s.memory then .error (.memoryExceeded limit) else .ok ()
    | none => .ok ()

end Context

/-- A computation that builds terms, works on a state and may fail. A failure keeps the terms and
the state as far as they got. -/
abbrev Attempt (σ : Type) := ExceptT Error (StateT σ Terms)

namespace Attempt

variable {σ α : Type}

/-- The outcome of a pure computation. -/
def ofExcept : Except Error α → Attempt σ α
  | .ok a => pure a
  | .error e => throw e

/-- Fail if the circumstances ask for it. -/
def check (context : Context) : Attempt σ Unit := do
  let s ← readThe Store
  ofExcept (context.check s)

/-- Build terms. -/
def build (work : Terms α) : Attempt σ α := do
  let a ← (work : StateT σ Terms α)
  return a

/-- Run an attempt from a state: its outcome and the state that it leaves. -/
def runFrom (work : Attempt σ α) (state : σ) : Terms (Except Error α × σ) :=
  StateT.run (ExceptT.run work) state

/-- Go on from the outcome of an earlier attempt with its state. -/
def ofRun (run : σ → Terms (Except Error α × σ)) : Attempt σ α := ExceptT.mk run

end Attempt
end Stratagem
