import Stratagem.Model

/-!
# Model converters

A tactic that turns a goal into subgoals says how a model of a subgoal becomes a model of the
goal. Converters of tactics that run one after the other are applied in the opposite order, and
one that follows several subgoals first finds the subgoal that the model belongs to.
-/
namespace Stratagem

/-- What became of one subgoal of an earlier tactic. -/
structure Branch (γ : Type) where
  /-- The position of the subgoal among those of the earlier tactic. -/
  parent : Nat
  /-- The converter of the later tactic on that subgoal. -/
  child : γ
  /-- The number of subgoals that the later tactic made of it. -/
  count : Nat

/-- How a model of a subgoal becomes a model of the goal. -/
inductive ModelConverter where
  /-- A model of the subgoal is one of the goal. -/
  | identity
  /-- Define eliminated constants, the last definition first. -/
  | extension (defs : List (TermId × TermId))
  /-- Hide auxiliary constants. -/
  | filter (hidden : List TermId)
  /-- Assemble bit-vector constants of their bits, the least significant first, and hide the
  bits. -/
  | bits (constants : List (TermId × List TermId))
  /-- The converters of tactics in the order in which they ran. -/
  | concat (parts : List ModelConverter)
  /-- The converter of a tactic, and those of the tactic that ran on each of its subgoals. -/
  | split (parent : ModelConverter) (branches : List (Branch ModelConverter))

namespace ModelConverter

/-- Whether the converter does nothing. -/
def isIdentity : ModelConverter → Bool
  | identity => true
  | _ => false

/-- The parts of a composition; any other converter is its own part. -/
def parts : ModelConverter → List ModelConverter
  | concat parts => parts
  | c => [c]

/-- The composition of the converters of two tactics in the order in which they ran. -/
def andThen (first second : ModelConverter) : ModelConverter :=
  match first, second with
  | identity, c | c, identity => c
  | first, second => concat (first.parts ++ second.parts)

/-- The composition over several subgoals. -/
def ofBranches (parent : ModelConverter) (branches : List (Branch ModelConverter)) :
    ModelConverter :=
  if parent.isIdentity && branches.all (·.child.isIdentity) then identity
  else split parent branches

/-- Give each constant the value of its definition, the last one first. -/
def define : List (TermId × TermId) → Attempt Model Unit
  | [] => return ()
  | (var, definition) :: rest => do
    define rest
    let m ← get
    let value ← Attempt.ofExcept (← Attempt.build (m.eval definition true))
    modify (·.insert var value)

/-- The number whose bits, the least significant first, are given. -/
def numberOf : List Bool → Nat
  | [] => 0
  | b :: rest => b.toNat + 2 * numberOf rest

/-- Assemble one bit-vector constant of the values of its bits; a bit without a value is zero. -/
def assemble (constant : TermId) (digits : List TermId) : Attempt Model Unit := do
  let m ← get
  let number := numberOf (digits.map fun b => m.get? b == some Store.trueId)
  let value ← Attempt.build (Terms.mkBitVec (Int.ofNat number) digits.length)
  modify fun m => digits.foldl Model.erase (m.insert constant value)

mutual

/-- Turn a model of the subgoal at a position into a model of the goal. -/
def apply : ModelConverter → Nat → Attempt Model Unit
  | identity, _ => return ()
  | extension defs, _ => define defs
  | filter hidden, _ => modify fun m => hidden.foldl Model.erase m
  | bits constants, _ => constants.forM fun (constant, digits) => assemble constant digits
  | concat parts, index => applyParts parts index
  | split parent branches, index => do
    match ← applyBranch branches index with
    | some position => apply parent position
    | none => throw (.internal s!"model converter has no subgoal {index}")

/-- Apply the parts of a composition, the last one first: the position is that of the last part,
and every other part has one subgoal. -/
def applyParts : List ModelConverter → Nat → Attempt Model Unit
  | [], _ => return ()
  | [part], index => apply part index
  | part :: next :: rest, index => do
    applyParts (next :: rest) index
    apply part 0

/-- Apply the converter of the branch that a position belongs to; the answer is the position of
the branch. -/
def applyBranch : List (Branch ModelConverter) → Nat → Attempt Model (Option Nat)
  | [], _ => return none
  | ⟨parent, child, count⟩ :: rest, index => do
    if index < count then
      apply child index
      return some parent
    else applyBranch rest (index - count)

end

/-- An absent converter leaves the model as it is. -/
@[simp] theorem apply_identity (index : Nat) : identity.apply index = pure () := by rw [apply]

/-- A single part is applied at the position. -/
@[simp] theorem applyParts_single (part : ModelConverter) (index : Nat) :
    applyParts [part] index = part.apply index := by
  rw [applyParts]

/-- The model that a model of a subgoal becomes. -/
def convert (c : ModelConverter) (index : Nat) (m : Model) : Terms (Except Error Unit × Model) :=
  (c.apply index).runFrom m

end ModelConverter
end Stratagem
