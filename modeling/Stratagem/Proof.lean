import Stratagem.Term.Text

/-!
# Proofs

A proof is a tree of steps, each with its rule, its premises and the formula it concludes. Every
step carries the number under which it was made, so that a step used twice in a proof is told
from two equal steps; equality of proofs does not look at these numbers.
-/
namespace Stratagem

/-- The rule of a proof step. -/
inductive ProofRule where
  /-- An assertion of the input. -/
  | asserted
  /-- A local assumption, discharged by a lemma. -/
  | hypothesis
  /-- An equation by rewriting. -/
  | rewriting
  /-- From `p` and `p = q` conclude `q`. -/
  | modusPonens
  /-- A member of a conjunction. -/
  | andElim
  /-- The negation of a member of a negated disjunction. -/
  | notOrElim
  /-- Resolution of a clause with literals. -/
  | unitResolution
  /-- Discharge of the hypotheses of a refutation. -/
  | discharge
  /-- Replacement of constants by their definitions. -/
  | substitution
  /-- Encoding of bit-vectors by their bits. -/
  | bitBlast
  deriving DecidableEq, Repr

/-- All rules. -/
def ProofRule.all : List ProofRule :=
  [asserted, hypothesis, rewriting, modusPonens, andElim, notOrElim, unitResolution, discharge,
    substitution, bitBlast]

/-- The name of a rule. -/
def ProofRule.name : ProofRule → String
  | asserted => "asserted"
  | hypothesis => "hypothesis"
  | rewriting => "rewrite"
  | modusPonens => "mp"
  | andElim => "and-elim"
  | notOrElim => "not-or-elim"
  | unitResolution => "unit-resolution"
  | discharge => "lemma"
  | substitution => "substitution"
  | bitBlast => "bit-blast"

/-- A proof: a step with its number, rule, premises and conclusion. -/
inductive Proof where
  | step (mark : Nat) (rule : ProofRule) (premises : List Proof) (conclusion : TermId)

namespace Proof

/-- The rule of the last step. -/
def rule : Proof → ProofRule
  | step _ rule _ _ => rule

/-- The premises of the last step. -/
def premises : Proof → List Proof
  | step _ _ premises _ => premises

/-- The proved formula. -/
def conclusion : Proof → TermId
  | step _ _ _ conclusion => conclusion

/-- Make a step. -/
def make (rule : ProofRule) (premises : List Proof) (conclusion : TermId) : Terms Proof where
  run s := (step s.proofCount rule premises conclusion, { s with proofCount := s.proofCount + 1 })
  grows _ _ _ found := found

/-- A formula of the input. -/
def asserted (f : TermId) : Terms Proof := make .asserted [] f

/-- An assumption. -/
def hypothesis (f : TermId) : Terms Proof := make .hypothesis [] f

/-- The equation of a term and its rewritten form. -/
def rewriting (before after : TermId) : Terms Proof := do
  make .rewriting [] (← Terms.mkEq before after)

/-- The proved formula rewritten to another; the proof itself when nothing changes. -/
def rewritten (p : Proof) (after : TermId) : Terms Proof := do
  if p.conclusion = after then return p
  else make .modusPonens [p, ← rewriting p.conclusion after] after

/-- The conclusion of a refutation under hypotheses, without them. -/
def discharge (p : Proof) (conclusion : TermId) : Terms Proof := make .discharge [p] conclusion

mutual

/-- The numbers of the steps of a proof, added to those met before. -/
def marks (seen : Std.HashSet Nat) : Proof → Std.HashSet Nat
  | step mark _ premises _ =>
    if seen.contains mark then seen else marksOfAll (seen.insert mark) premises

/-- The numbers of the steps of several proofs. -/
def marksOfAll (seen : Std.HashSet Nat) : List Proof → Std.HashSet Nat
  | [] => seen
  | p :: rest => marksOfAll (marks seen p) rest

end

/-- The number of steps, a step used several times counted once. -/
def size (p : Proof) : Nat := (marks ∅ p).size

mutual

/-- Whether a hypothesis is used that no lemma discharges. -/
def isOpen : Proof → Bool
  | step _ .hypothesis _ _ => true
  | step _ .discharge _ _ => false
  | step _ _ premises _ => anyOpen premises

/-- Whether one of several proofs is open. -/
def anyOpen : List Proof → Bool
  | [] => false
  | p :: rest => isOpen p || anyOpen rest

end

/-- Whether every hypothesis is discharged. -/
def isClosed (p : Proof) : Bool := !p.isOpen

mutual

/-- The text of a proof: rule, premises and conclusion in parentheses. -/
def text (s : Store) : Proof → String
  | step _ rule premises conclusion =>
    "(" ++ rule.name ++ textOfAll s premises ++ " " ++ s.text conclusion ++ ")"

/-- The texts of several proofs, each after a space. -/
def textOfAll (s : Store) : List Proof → String
  | [] => ""
  | p :: rest => " " ++ text s p ++ textOfAll s rest

end

end Proof
end Stratagem
