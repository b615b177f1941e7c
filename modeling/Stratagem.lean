import Stratagem.Algebraic.Arithmetic
import Stratagem.Algebraic.Basic
import Stratagem.Algebraic.Isolation
import Stratagem.BitBlast.Blaster
import Stratagem.BitBlast.Circuit
import Stratagem.BitBlast.Config
import Stratagem.Budget
import Stratagem.Converter.Model
import Stratagem.Converter.Proof
import Stratagem.Dependency
import Stratagem.Error
import Stratagem.Goal
import Stratagem.Model
import Stratagem.Number.Binary64
import Stratagem.Number.Decimal
import Stratagem.Number.Integer
import Stratagem.Number.Interval
import Stratagem.Number.Rational
import Stratagem.Parameter
import Stratagem.Polynomial.Basic
import Stratagem.Polynomial.Division
import Stratagem.Probe.Basic
import Stratagem.Probe.Fragment
import Stratagem.Probe.Statistic
import Stratagem.Proof
import Stratagem.Proofs.Algebraic.Arithmetic
import Stratagem.Proofs.Algebraic.Interval
import Stratagem.Proofs.Algebraic.Isolation
import Stratagem.Proofs.Algebraic.Linear
import Stratagem.Proofs.Algebraic.Settling
import Stratagem.Proofs.Algebraic.Order
import Stratagem.Proofs.Algebraic.Reachable
import Stratagem.Proofs.Algebraic.Refusal
import Stratagem.Proofs.Algebraic.Representation
import Stratagem.Proofs.Algebraic.Selection
import Stratagem.Proofs.Algebraic.Value
import Stratagem.Proofs.BitBlast.Blaster
import Stratagem.Proofs.BitBlast.Circuit
import Stratagem.Proofs.BitBlast.Encoding
import Stratagem.Proofs.BitBlast.Meaning
import Stratagem.Proofs.BitBlast.Spelling
import Stratagem.Proofs.BitBlast.Work
import Stratagem.Proofs.Completion
import Stratagem.Proofs.Converter.Bits
import Stratagem.Proofs.Converter.Composition
import Stratagem.Proofs.Converter.Definition
import Stratagem.Proofs.Dependency
import Stratagem.Proofs.Evaluation
import Stratagem.Proofs.Goal
import Stratagem.Proofs.Goal.Choice
import Stratagem.Proofs.Goal.Operation
import Stratagem.Proofs.Goal.Redundancy
import Stratagem.Proofs.Model
import Stratagem.Proofs.Model.Order
import Stratagem.Proofs.Number.Circle
import Stratagem.Proofs.Number.Simplest
import Stratagem.Proofs.Number.Image
import Stratagem.Proofs.Number.Root
import Stratagem.Proofs.Number.RealPower
import Stratagem.Proofs.Parameter
import Stratagem.Proofs.Polynomial.Division
import Stratagem.Proofs.Polynomial.Meaning
import Stratagem.Proofs.Polynomial.Primitive
import Stratagem.Proofs.Polynomial.Ring
import Stratagem.Proofs.Polynomial.Root
import Stratagem.Proofs.Polynomial.Separation
import Stratagem.Proofs.Polynomial.Sturm
import Stratagem.Proofs.Polynomial.Substitution
import Stratagem.Proofs.Probe.Linear
import Stratagem.Proofs.Reasoning
import Stratagem.Proofs.Rewriting.Canonical
import Stratagem.Proofs.Rewriting.Canonizer
import Stratagem.Proofs.Rewriting.Comparison
import Stratagem.Proofs.Rewriting.Connective
import Stratagem.Proofs.Rewriting.Constant
import Stratagem.Proofs.Rewriting.Derived
import Stratagem.Proofs.Rewriting.Effort
import Stratagem.Proofs.Rewriting.Equivalence
import Stratagem.Proofs.Rewriting.Expansion
import Stratagem.Proofs.Rewriting.Fragment
import Stratagem.Proofs.Rewriting.Limit
import Stratagem.Proofs.Rewriting.Literal
import Stratagem.Proofs.Rewriting.Memory
import Stratagem.Proofs.Rewriting.Monomial
import Stratagem.Proofs.Rewriting.Numeral
import Stratagem.Proofs.Rewriting.Power
import Stratagem.Proofs.Rewriting.Rule
import Stratagem.Proofs.Rewriting.Simplifier
import Stratagem.Proofs.Rewriting.Sum
import Stratagem.Proofs.Rewriting.Unlimited
import Stratagem.Proofs.Solver
import Stratagem.Proofs.Solver.Answer
import Stratagem.Proofs.Soundness.Circular
import Stratagem.Proofs.Soundness.Division
import Stratagem.Proofs.Soundness.Monomial
import Stratagem.Proofs.Soundness.Power
import Stratagem.Proofs.Soundness.Preservation
import Stratagem.Proofs.Soundness.Quotient
import Stratagem.Proofs.Soundness.Replacement
import Stratagem.Proofs.Soundness.Simplifier
import Stratagem.Proofs.Soundness.Valuation
import Stratagem.Proofs.Steady.Comparison
import Stratagem.Proofs.Steady.Connective
import Stratagem.Proofs.Steady.Division
import Stratagem.Proofs.Steady.Function
import Stratagem.Proofs.Steady.Reasoning
import Stratagem.Proofs.Steady.Sum
import Stratagem.Proofs.Tactic.Apply
import Stratagem.Proofs.Tactic.BitBlast
import Stratagem.Proofs.Tactic.CaseSplit
import Stratagem.Proofs.Tactic.CaseVerdict
import Stratagem.Proofs.Tactic.Configuration
import Stratagem.Proofs.Tactic.Definition
import Stratagem.Proofs.Tactic.Depth
import Stratagem.Proofs.Tactic.Enumeration
import Stratagem.Proofs.Tactic.LinearEquation
import Stratagem.Proofs.Tactic.Override
import Stratagem.Proofs.Tactic.Parameter
import Stratagem.Proofs.Tactic.Recovery
import Stratagem.Proofs.Tactic.Reuse
import Stratagem.Proofs.Tactic.Sequence
import Stratagem.Proofs.Tactic.Simplify
import Stratagem.Proofs.Tactic.Triangular
import Stratagem.Proofs.Term.Building
import Stratagem.Proofs.Term.Meaning
import Stratagem.Proofs.Term.Occurrence
import Stratagem.Proofs.Term.Polynomial
import Stratagem.Proofs.Term.Quantifier
import Stratagem.Proofs.Term.Reading
import Stratagem.Proofs.Term.Semantics
import Stratagem.Proofs.Term.Sharing
import Stratagem.Proofs.Term.Substitution
import Stratagem.Proofs.Term.Subterm
import Stratagem.Proofs.Term.Traversal
import Stratagem.Proofs.Term.Truth
import Stratagem.Proofs.Term.Valuation
import Stratagem.Proofs.Termination.Simplifier
import Stratagem.Proofs.Word.Simplifier
import Stratagem.Registry
import Stratagem.Rewriting.Arithmetic
import Stratagem.Rewriting.BitVector
import Stratagem.Rewriting.Circular
import Stratagem.Rewriting.Comparison
import Stratagem.Rewriting.Config
import Stratagem.Rewriting.Connective
import Stratagem.Rewriting.Division
import Stratagem.Rewriting.Monomial
import Stratagem.Rewriting.Power
import Stratagem.Rewriting.Rule
import Stratagem.Rewriting.Simplifier
import Stratagem.Rewriting.Sum
import Stratagem.Solver
import Stratagem.Tactic.Apply
import Stratagem.Tactic.Basic
import Stratagem.Tactic.BitBlast
import Stratagem.Tactic.CaseSplit
import Stratagem.Tactic.EquationSolver
import Stratagem.Tactic.Result
import Stratagem.Tactic.Simplify
import Stratagem.Term.Op
import Stratagem.Term.Sort
import Stratagem.Term.Store
import Stratagem.Term.Text
import Stratagem.Term.Traversal
import Stratagem.Text.Quoted
import Stratagem.Text.Unseen
