import Stratagem.Probe.Statistic

/-!
# Probes

A probe measures a goal by a double. A probe that answers a question gives one for yes and zero
for no, and any value but zero counts as yes.
-/
namespace Stratagem

/-- An operator on the values of two probes. -/
inductive ProbeOp where
  | lt
  | le
  | gt
  | ge
  | eq
  | and
  | or
  | implies
  | add
  | sub
  | mul
  | div
  deriving DecidableEq, Repr

namespace ProbeOp

/-- All operators. -/
def all : List ProbeOp := [lt, le, gt, ge, eq, and, or, implies, add, sub, mul, div]

/-- How an operator is written. -/
def symbol : ProbeOp → String
  | lt => "<"
  | le => "<="
  | gt => ">"
  | ge => ">="
  | eq => "="
  | and => "and"
  | or => "or"
  | implies => "implies"
  | add => "+"
  | sub => "-"
  | mul => "*"
  | div => "/"

/-- The answer to a question. -/
def answer (b : Bool) : Float := if b then 1 else 0

/-- Whether a value counts as yes. -/
def holds (x : Float) : Bool := x != 0

/-- The value of an operator. -/
def eval (a b : Float) : ProbeOp → Float
  | lt => answer (a < b)
  | le => answer (a ≤ b)
  | gt => answer (b < a)
  | ge => answer (b ≤ a)
  | eq => answer (a == b)
  | and => answer (holds a && holds b)
  | or => answer (holds a || holds b)
  | implies => answer (!holds a || holds b)
  | add => a + b
  | sub => a - b
  | mul => a * b
  | div => a / b

end ProbeOp

/-- A measurement of goals. -/
inductive Probe where
  | measure (m : Measure)
  | fragment (f : Fragment)
  | statistic (figure : Statistic)
  | const (value : Float)
  | not (p : Probe)
  | binary (op : ProbeOp) (left right : Probe)

namespace Probe

/-- The name of a probe. -/
def name : Probe → String
  | measure m => m.name
  | fragment f => f.name
  | statistic s => s.name
  | const _ => "const"
  | not _ => "not"
  | binary op _ _ => op.symbol

/-- The value of a probe on a goal. -/
def eval (s : Store) (g : Goal) : Probe → Float
  | measure m => Statistic.double (m.value s g)
  | fragment f => ProbeOp.answer (g.inFragment s f)
  | statistic figure => figure.value s g
  | const value => value
  | not p => ProbeOp.answer !(ProbeOp.holds (p.eval s g))
  | binary op left right => op.eval (left.eval s g) (right.eval s g)

/-- Whether a probe answers yes. -/
def holds (p : Probe) (s : Store) (g : Goal) : Bool := ProbeOp.holds (p.eval s g)

/-- The probes that have a name of their own. -/
def builtin : List Probe :=
  Measure.all.map measure ++ Fragment.all.map fragment ++ Statistic.all.map statistic

/-- The probe of a name. -/
def named (name : String) : Except Error Probe :=
  match builtin.find? (·.name == name) with
  | some p => .ok p
  | none => .error (.invalidParameter name "unknown probe")

end Probe
end Stratagem
