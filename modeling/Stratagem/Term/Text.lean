import Stratagem.Term.Store

/-!
# The text of terms

Terms are written in prefix form: a literal or a constant by itself, an application as its head
and its arguments in parentheses, a function without arguments by its name.
-/
namespace Stratagem.Store

/-- The text of a node, given the texts of its arguments. -/
def nodeText (op : Op) (args : List String) : String :=
  if op.isAtom then op.symbol
  else
    match op, args with
    | .apply function, [] => function
    | _, _ => "(" ++ " ".intercalate (op.symbol :: args) ++ ")"

/-- The text of a term of at most a given height. -/
def textTo (s : Store) : Nat → TermId → String
  | 0, _ => ""
  | height + 1, t =>
    let n := s.node t
    nodeText n.op (n.args.map (s.textTo height))

/-- The text of a term. Arguments stand at smaller positions, so its position bounds its
height. -/
def text (s : Store) (t : TermId) : String := s.textTo (t + 1) t

end Stratagem.Store
