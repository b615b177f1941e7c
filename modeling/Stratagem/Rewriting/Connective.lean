import Stratagem.Rewriting.Rule

/-!
# Connectives

Rules for negation, conjunction, disjunction, implication, exclusive or, case distinction,
equality and pairwise difference. Implication, exclusive or and difference of two terms are
written by the others.
-/
namespace Stratagem.Connective

open Terms Rule

/-- Negation of a truth value or of a negation. -/
def reduceNot (a : TermId) : Rule Outcome := do
  peek fun s =>
    match s.view a with
    | (.bool b, _) => .done (ofBool !b)
    | (.not, [b]) => .done b
    | _ => .failed

/-- Gather the distinct members of a conjunction or disjunction: the neutral element is dropped,
and members with the same head are replaced by their own members if `flat`. -/
def gather (s : Store) (head : Op) (unit : TermId) (flat : Bool) : Nat → Walk → TermId → Walk
  | 0, w, _ => w
  | depth + 1, w, a =>
    if a = unit || w.seen.contains a then w
    else
      let w := { w with seen := w.seen.insert a }
      if flat && s.op a == head then (s.args a).foldl (gather s head unit flat depth) w
      else { w with out := w.out.push a }

/-- Whether a list of terms has a member together with its negation. -/
def hasComplement (s : Store) (members : List TermId) : Bool :=
  members.any fun a =>
    match s.view a with
    | (.not, [b]) => members.contains b
    | _ => false

/-- Conjunction or disjunction: flattened and without repetitions; its absorbing element if it
has that as a member or two complementary members. -/
def reduceJunction (isAnd : Bool) (args : List TermId) : Rule Outcome := do
  let unit := ofBool isAnd
  let absorbing := ofBool !isAnd
  let flat := (← read).flat
  let head : Op := if isAnd then .and else .or
  let members ← peek fun s => (args.foldl (gather s head unit flat s.size) {}).out.toList
  if members.contains absorbing then return .done absorbing
  else if ← peek (hasComplement · members) then return .done absorbing
  else if members = args then return .failed
  else return .done (← if isAnd then mkAnd members else mkOr members)

/-- Conjunction, written as a negated disjunction if that is asked for. -/
def reduceAnd (t : TermId) (args : List TermId) : Rule Outcome := do
  let outcome ← reduceJunction true args
  if !(← read).elimAnd then return outcome
  else
    match ← peek (·.view (outcome.result?.getD t)) with
    | (.and, members) =>
      let negated ← members.mapM fun a => (mkNot a : Rule TermId)
      return .revisit 3 (← mkNot (← mkOr negated))
    | _ => return outcome

/-- Case distinction between booleans: one with a constant branch is a connective. -/
def reduceBoolIte (c a b : TermId) : Rule Outcome := do
  if a = Store.trueId ∧ b = Store.falseId then return .done c
  else if a = Store.falseId ∧ b = Store.trueId then return .revisit 1 (← mkNot c)
  else if a = Store.trueId then return .revisit 1 (← mkOr [c, b])
  else if b = Store.falseId then return .revisit 1 (← mkAnd [c, a])
  else if a = Store.falseId then return .revisit 2 (← mkAnd [← mkNot c, b])
  else if b = Store.trueId then return .revisit 2 (← mkOr [← mkNot c, a])
  else return .failed

/-- Case distinction. -/
def reduceIte (c a b : TermId) : Rule Outcome := do
  if c = Store.trueId then return .done a
  else if c = Store.falseId then return .done b
  else if a = b then return .done a
  else
    match ← peek (·.view c) with
    | (.not, [d]) => return .revisit 1 (← mkIte d b a)
    | _ => if ← peek (·.isBool a) then reduceBoolIte c a b else return .failed

/-- Equality with a truth value or with the negation of the other side. -/
def reduceIff (a b : TermId) : Rule (Option Outcome) := do
  if b = Store.trueId then return some (.done a)
  else if b = Store.falseId then return some (.revisit 1 (← mkNot a))
  else
    match ← peek (·.view b) with
    | (.not, [c]) => return if c = a then some (.done Store.falseId) else none
    | _ => return none

/-- Equality: of a term with itself, of two literals of one sort, and of booleans. -/
def reduceEq (a b : TermId) : Rule Outcome := do
  if a = b then return .done Store.trueId
  else if ← peek fun s => s.isValue a && s.isValue b && s.sortOf a == s.sortOf b then
    return .done Store.falseId
  else if ← peek (·.isBool a) then
    match ← reduceIff a b with
    | some outcome => return outcome
    | none => return (← reduceIff b a).getD .failed
  else return .failed

/-- Whether a list has a repeated member. -/
def hasRepeat : List TermId → Bool
  | [] => false
  | a :: rest => rest.contains a || hasRepeat rest

/-- Pairwise difference: of at most one term, with a repetition, of two terms, and of literals. -/
def reduceDistinct (args : List TermId) : Rule Outcome := do
  if args.length ≤ 1 then return .done Store.trueId
  else if hasRepeat args then return .done Store.falseId
  else
    match args with
    | [a, b] => return .revisit 2 (← mkNot (← mkEq a b))
    | _ =>
      if ← peek fun s => args.all s.isValue then return .done Store.trueId else return .failed

/-- The rules for connectives. -/
def reduce (t : TermId) : Rule Outcome := do
  match ← peek (·.view t) with
  | (.not, [a]) => reduceNot a
  | (.and, args) => reduceAnd t args
  | (.or, args) => reduceJunction false args
  | (.implies, [a, b]) => return .revisit 2 (← mkOr [← mkNot a, b])
  | (.xor, [a, b]) => return .revisit 2 (← mkNot (← mkEq a b))
  | (.ite, [c, a, b]) => reduceIte c a b
  | (.eq, [a, b]) => reduceEq a b
  | (.distinct, args) => reduceDistinct args
  | _ => return .failed

end Stratagem.Connective
