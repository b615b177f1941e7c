import Stratagem.Budget
import Stratagem.Dependency
import Stratagem.Proof
import Stratagem.Term.Traversal

/-!
# Goals

A goal is a conjunction of formulas, each with its justification: a proof when the goal keeps
proofs, and the tracked assumptions it depends on when it keeps unsatisfiable cores. No goal
keeps both. An asserted formula is taken apart into conjuncts, of which `true` is dropped and
`false` makes the goal inconsistent; an inconsistent goal holds `false` alone and changes no more.
-/
namespace Stratagem

/-- A formula of a goal with its justification. -/
structure Entry where
  /-- The formula. -/
  formula : TermId
  /-- Its proof, if proofs are kept. -/
  proof : Option Proof := none
  /-- What it depends on, if cores are kept. -/
  deps : Option DependencySet := none

/-- A conjunction of formulas. -/
structure Goal where
  /-- Formulas in order. -/
  entries : List Entry := []
  /-- Whether a model is asked for. -/
  models : Bool
  /-- Whether proofs are kept. -/
  proofs : Bool
  /-- Whether dependencies are kept. -/
  cores : Bool
  /-- Whether `false` was found. -/
  inconsistent : Bool := false
  /-- The number of transformations so far. -/
  depth : Nat := 0

namespace Store

/-- A formula as an atom and whether it stands negated. -/
def literal (s : Store) (f : TermId) : TermId × Bool :=
  match s.view f with
  | (.not, [a]) => (a, true)
  | _ => (f, false)

end Store

namespace Goal

/-- The empty goal; proofs and cores cannot be kept at once. -/
def new (models proofs cores : Bool) : Except Error Goal :=
  if proofs && cores then
    .error (.invalidGoal "proofs and unsat cores cannot be enabled together")
  else .ok { models, proofs, cores }

/-- The goal without its formulas. -/
def cleared (g : Goal) : Goal := { g with entries := [], inconsistent := false }

/-- The number of formulas. -/
def size (g : Goal) : Nat := g.entries.length

/-- The formulas in order. -/
def formulas (g : Goal) : List TermId := g.entries.map (·.formula)

/-- Whether nothing is left to satisfy. -/
def isDecidedSat (g : Goal) : Bool := g.entries.isEmpty && !g.inconsistent

/-- Whether the goal is refuted. -/
def isDecidedUnsat (g : Goal) : Bool := g.inconsistent

/-- Whether the goal is decided either way. -/
def isDecided (g : Goal) : Bool := g.isDecidedSat || g.isDecidedUnsat

/-- Record one more transformation. -/
def deeper (g : Goal) : Goal := { g with depth := g.depth + 1 }

/-- The number of distinct subterms. -/
def exprCount (g : Goal) (s : Store) : Nat := (s.subtermsOfAll g.formulas).length

/-- What the formulas depend on together. -/
def allDeps (g : Goal) : Option DependencySet :=
  g.entries.foldl (fun deps e => DependencySet.join deps e.deps) none

/-- The proof of the formula of a refuted goal. -/
def refutation? (g : Goal) : Option Proof := g.entries.head?.bind (·.proof)

/-- The goal refuted by a justification of `false`. -/
def refuted (g : Goal) (proof : Option Proof) (deps : Option DependencySet) : Goal :=
  { g with entries := [⟨Store.falseId, proof, deps⟩], inconsistent := true }

/-- A proof, if the goal keeps proofs. -/
def keptProof (g : Goal) (proof : Option Proof) : Option Proof := if g.proofs then proof else none

/-- Dependencies, if the goal keeps them. -/
def keptDeps (g : Goal) (deps : Option DependencySet) : Option DependencySet :=
  if g.cores then deps else none

/-- A conjunct with its proof. -/
abbrev Part := TermId × Option Proof

/-- A step from an optional proof. -/
def derive (rule : ProofRule) (proof : Option Proof) (conclusion : TermId) : Terms Part := do
  match proof with
  | some p => return (conclusion, some (← Proof.make rule [p] conclusion))
  | none => return (conclusion, none)

/-- The negations of the members of a disjunction, the last one built first. -/
def negations : List TermId → Terms (List TermId)
  | [] => return []
  | a :: rest => do
    let rest ← negations rest
    return (← Terms.mkNot a) :: rest

/-- The members of a conjunction or the negated members of a negated disjunction, with their
proofs; nothing when the formula is a conjunct itself. -/
def split? (part : Part) : Terms (Option (List Part)) := do
  let s ← read
  let (f, proof) := part
  match s.view f with
  | (.bool true, _) => return some []
  | (.and, args) => return some (← args.mapM (derive .andElim proof))
  | (.not, [a]) =>
    match s.view a with
    | (.bool false, _) => return some []
    | (.or, args) => return some (← (← negations args).mapM (derive .notOrElim proof))
    | _ => return none
  | _ => return none

/-- Put the conjuncts of a formula with their proofs before those found already, the last one
first. The atom of a part stands below the atom of the formula it is taken from, so the position
of the formula bounds the depth. -/
def conjunctsOnto : Nat → List Part → Part → Terms (List Part)
  | 0, found, part => return part :: found
  | depth + 1, found, part => do
    match ← split? part with
    | some parts => parts.foldlM (conjunctsOnto depth) found
    | none => return part :: found

/-- Take a formula apart into its conjuncts, in order. -/
def flatten (f : TermId) (proof : Option Proof) : Terms (List Part) := do
  return (← conjunctsOnto (f + 1) [] (f, proof)).reverse

/-- The first part that is `false`. -/
def falsePart? (parts : List Part) : Option Part := parts.find? (·.1 == Store.falseId)

/-- The entries of parts with common dependencies. -/
def entriesOf (parts : List Part) (deps : Option DependencySet) : List Entry :=
  parts.map fun (f, proof) => ⟨f, proof, deps⟩

/-- Assert a formula with its justification. -/
def assertEntry (g : Goal) (e : Entry) : Terms Goal := do
  if g.inconsistent then return g
  else
    let deps := g.keptDeps e.deps
    let parts ← flatten e.formula (g.keptProof e.proof)
    match falsePart? parts with
    | some (_, proof) => return g.refuted proof deps
    | none => return { g with entries := g.entries ++ entriesOf parts deps }

/-- The proof of an input formula, if the goal keeps proofs. -/
def inputProof (g : Goal) (f : TermId) : Terms (Option Proof) := do
  if g.proofs then return some (← Proof.asserted f) else return none

/-- Assert an input formula. -/
def assert (g : Goal) (f : TermId) : Terms Goal := do
  g.assertEntry ⟨f, ← g.inputProof f, none⟩

/-- Assert a tracked assumption, which depends on itself. -/
def track (g : Goal) (f : TermId) : Terms Goal := do
  g.assertEntry ⟨f, ← g.inputProof f, g.keptDeps (some (.leaf f))⟩

/-- Replace the formula of a slot. Its first conjunct takes the slot and the others are appended;
`true` is left in the slot when there is no conjunct. -/
def update (g : Goal) (slot : Nat) (e : Entry) : Terms Goal := do
  if g.inconsistent then return g
  else
    let deps := g.keptDeps e.deps
    let proof := g.keptProof e.proof
    let parts ← flatten e.formula proof
    match falsePart? parts with
    | some (_, proof) => return g.refuted proof deps
    | none =>
      match entriesOf parts deps with
      | first :: rest => return { g with entries := g.entries.set slot first ++ rest }
      | [] => return { g with entries := g.entries.set slot ⟨Store.trueId, proof, deps⟩ }

/-- The refutation by two complementary formulas, the earlier one first. -/
def clash (earlier later : Entry) : Terms (Option Proof × Option DependencySet) := do
  let deps := DependencySet.join later.deps earlier.deps
  match earlier.proof, later.proof with
  | some p, some q => return (some (← Proof.make .unitResolution [p, q] Store.falseId), deps)
  | _, _ => return (none, deps)

/-- Keep the entries that say something new, until one contradicts an earlier one. -/
def distinctEntries (s : Store) (kept : Array Entry) :
    List Entry → Except (Entry × Entry) (Array Entry)
  | [] => .ok kept
  | e :: rest =>
    if e.formula = Store.trueId then distinctEntries s kept rest
    else
      let (atom, negated) := s.literal e.formula
      if kept.any fun k => s.literal k.formula == (atom, negated) then
        distinctEntries s kept rest
      else
        match kept.find? fun k => s.literal k.formula == (atom, !negated) with
        | some earlier => .error (earlier, e)
        | none => distinctEntries s (kept.push e) rest

/-- Drop `true` and repeated formulas; a formula and its negation refute the goal. -/
def elimRedundancies (g : Goal) : Terms Goal := do
  if g.inconsistent then return g
  else
    match distinctEntries (← read) #[] g.entries with
    | .ok kept => return { g with entries := kept.toList }
    | .error (earlier, later) =>
      let (proof, deps) ← clash earlier later
      return g.refuted proof deps

/-- The conjunction of the formulas. -/
def toFormula (g : Goal) : Terms TermId := Terms.mkAnd g.formulas

/-- The text of a goal: its formulas and its depth. -/
def text (g : Goal) (s : Store) : String :=
  let lines := g.formulas.map fun f => "\n  " ++ s.text f
  "(goal" ++ String.join lines ++ "\n  :depth " ++ toString g.depth ++ ")"

/-- The most slots that a pass over a goal visits. -/
def slotLimit : Nat := 4294967296

variable {σ : Type}

/-- Visit the slots of a goal from a position on, those appended on the way included, until the
goal is inconsistent. -/
def visitFrom (visit : Nat → Entry → Goal → Attempt σ Goal) :
    Nat → Nat → Goal → Attempt σ Goal
  | 0, _, g => return g
  | rounds + 1, slot, g => do
    match g.entries[slot]? with
    | some e =>
      if g.inconsistent then return g
      else visitFrom visit rounds (slot + 1) (← visit slot e g)
    | none => return g

/-- Visit all slots of a goal in order; a pass that would visit more than the limit fails. -/
def visitAll (visit : Nat → Entry → Goal → Attempt σ Goal) (g : Goal) : Attempt σ Goal := do
  let g ← visitFrom visit slotLimit 0 g
  if g.inconsistent || g.size ≤ slotLimit then return g
  else throw (.internal "too many formulas")

end Goal
end Stratagem
