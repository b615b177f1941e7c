import Std.Data.HashMap
import Std.Data.HashSet
import Stratagem.Term.Op

/-!
# The term store

Terms live in a store and are referred to by their position in it. Building a term that is
already there returns its position, so two terms of one store are equal exactly when their
positions are; the arguments of a node stand at smaller positions than the node itself. A store
carries the proofs of both. The store only grows: a position keeps its node for ever. Every
computation of `Terms` carries the proof that it keeps the nodes that were there before it.
-/
namespace Stratagem

/-- The position of a term in its store. -/
abbrev TermId := Nat

/-- A term: its head, its arguments and its sort. -/
structure Node where
  /-- Head of the term. -/
  op : Op
  /-- Arguments in order. -/
  args : List TermId
  /-- Sort of the term. -/
  sort : TermSort
  deriving DecidableEq, Hashable, Repr, Inhabited

/-- All terms built so far. -/
structure Store where
  /-- Terms in the order in which they were first built. -/
  nodes : Array Node
  /-- The position of each term. -/
  table : Std.HashMap Node TermId
  /-- Sorts in the order in which they were first used. -/
  sorts : Array TermSort
  /-- Names of constants, functions, bound variables and sorts used so far. -/
  names : Std.HashSet String
  /-- The number of fresh names tried so far. -/
  freshCount : Nat
  /-- The number of proof steps made about these terms so far. -/
  proofCount : Nat
  /-- The table knows the terms, each at its position, and nothing else. -/
  exact : ∀ (node : Node) (t : TermId), table[node]? = some t ↔ nodes[t]? = some node
  /-- Arguments stand before the terms that have them. -/
  descending : ∀ (t : TermId) (node : Node), nodes[t]? = some node → ∀ a ∈ node.args, a < t
  /-- The first term is `true`. -/
  startsTrue : nodes[0]? = some ⟨.bool true, [], .bool⟩
  /-- The second term is `false`. -/
  thenFalse : nodes[1]? = some ⟨.bool false, [], .bool⟩

namespace Store

/-- The position of `true`. -/
def trueId : TermId := 0

/-- The position of `false`. -/
def falseId : TermId := 1

/-- The store that holds `true` and `false` only. -/
def initial : Store where
  nodes := #[⟨.bool true, [], .bool⟩, ⟨.bool false, [], .bool⟩]
  table := ((∅ : Std.HashMap Node TermId).insert ⟨.bool true, [], .bool⟩ trueId).insert
    ⟨.bool false, [], .bool⟩ falseId
  sorts := #[.bool, .int, .real]
  names := ∅
  freshCount := 0
  proofCount := 0
  exact node t := by
    simp only [Std.HashMap.getElem?_insert, trueId, falseId]
    match t with
    | 0 => grind
    | 1 => grind
    | t + 2 => grind
  descending t node found := by
    match t with
    | 0 | 1 =>
      obtain rfl := Option.some.inj found
      intro a inside
      contradiction
    | t + 2 => simp at found
  startsTrue := rfl
  thenFalse := rfl

/-- The number of terms. -/
def size (s : Store) : Nat := s.nodes.size

/-- The node at a position; positions come from the store, so the default is never seen. -/
def node (s : Store) (t : TermId) : Node := s.nodes.getD t default

/-- The head of a term. -/
def op (s : Store) (t : TermId) : Op := (s.node t).op

/-- The arguments of a term. -/
def args (s : Store) (t : TermId) : List TermId := (s.node t).args

/-- The sort of a term. -/
def sortOf (s : Store) (t : TermId) : TermSort := (s.node t).sort

/-- Head and arguments of a term. -/
def view (s : Store) (t : TermId) : Op × List TermId :=
  let n := s.node t
  (n.op, n.args)

/-- Whether the term has the boolean sort. -/
def isBool (s : Store) (t : TermId) : Bool := s.sortOf t == .bool

/-- Whether the term has the integer sort. -/
def isInt (s : Store) (t : TermId) : Bool := s.sortOf t == .int

/-- Whether the term has the real sort. -/
def isReal (s : Store) (t : TermId) : Bool := s.sortOf t == .real

/-- Whether the term is a number. -/
def isArith (s : Store) (t : TermId) : Bool := (s.sortOf t).isArith

/-- The value of a rational literal of either sort of numbers. -/
def numeral? (s : Store) (t : TermId) : Option Rat :=
  match s.op t with
  | .int n => some (Rational.ofInt n)
  | .real r => some r
  | _ => none

/-- Whether the term is a rational literal. -/
def isNumeral (s : Store) (t : TermId) : Bool := (s.numeral? t).isSome

/-- Whether the term is the literal zero. -/
def isZero (s : Store) (t : TermId) : Bool := s.numeral? t == some 0

/-- Whether the term is the literal one. -/
def isOne (s : Store) (t : TermId) : Bool := s.numeral? t == some 1

/-- The value of an irrational literal. -/
def algebraic? (s : Store) (t : TermId) : Option Algebraic :=
  match s.op t with
  | .algebraic a => some a
  | _ => none

/-- The value of a rational or irrational literal. -/
def exactNumeral? (s : Store) (t : TermId) : Option Numeral :=
  match s.op t with
  | .int n => some (.rational (Rational.ofInt n))
  | .real r => some (.rational r)
  | .algebraic a => some (.irrational a)
  | _ => none

/-- Value and width of a bit-vector literal. -/
def bitVec? (s : Store) (t : TermId) : Option (Nat × Nat) :=
  match s.op t with
  | .bitVec value width => some (value, width)
  | _ => none

/-- The name of a constant. -/
def varName? (s : Store) (t : TermId) : Option String :=
  match s.op t with
  | .var name => some name
  | _ => none

/-- Whether the term is a constant. -/
def isVar (s : Store) (t : TermId) : Bool := (s.varName? t).isSome

/-- Whether the term is a literal with a fixed value. -/
def isValue (s : Store) (t : TermId) : Bool := (s.op t).isValue

/-- The width of a bit-vector term; zero for others. -/
def bitWidth (s : Store) (t : TermId) : Nat := (s.sortOf t).width?.getD 0

/-- The sort of a sum or product of terms: integer when every term is. -/
def arithJoin (s : Store) (args : List TermId) : TermSort :=
  if args.all s.isInt then .int else .real

/-- The sort of the first argument; boolean when there is none. -/
def headSort (s : Store) : List TermId → TermSort
  | a :: _ => s.sortOf a
  | [] => .bool

/-- The sort of an application, from its head and its arguments. -/
def inferSort (s : Store) (op : Op) (args : List TermId) : TermSort :=
  match op with
  | .int _ | .intDiv | .mod | .rem | .toInt => .int
  | .real _ | .algebraic _ | .pi | .div | .toReal | .sin | .cos | .tan | .asin | .acos | .atan
  | .sinh | .cosh | .tanh | .asinh | .acosh | .atanh => .real
  | .neg | .add | .mul | .sub | .power => s.arithJoin args
  | .ite => s.headSort (args.drop 1)
  | .store | .bvNot | .bvNeg | .bvAnd | .bvOr | .bvXor | .bvAdd | .bvSub | .bvMul =>
    s.headSort args
  | .select =>
    match s.headSort args with
    | .array _ range => range
    | _ => .bool
  | .bitVec _ width => .bitVec width
  | .bvConcat => .bitVec (TermSort.wordWidth ((args.map s.bitWidth).foldl (· + ·) 0))
  | .bvExtract high low => .bitVec (TermSort.wordWidth (high - low + 1))
  | _ => .bool

/-- Record a sort as used. -/
def withSort (s : Store) (sort : TermSort) : Store :=
  if s.sorts.contains sort then s else { s with sorts := s.sorts.push sort }

/-- Record a name as used. -/
def withName (s : Store) (name : String) : Store := { s with names := s.names.insert name }

/-- Record names as used. -/
def withNames (s : Store) (names : List String) : Store := names.foldl withName s

/-- Record the number of fresh names tried. -/
def withFreshCount (s : Store) (count : Nat) : Store := { s with freshCount := count }

/-- The table and the nodes agree after a new node is added to both. -/
theorem exact_push (s : Store) (added : Node) (new : s.table[added]? = none) (node : Node)
    (t : TermId) : (s.table.insert added s.nodes.size)[node]? = some t ↔
      (s.nodes.push added)[t]? = some node := by
  have known := s.exact node t
  have absent := s.exact added t
  rw [Std.HashMap.getElem?_insert, Array.getElem?_push]
  by_cases same : added = node
  · subst same
    simp only [beq_self_eq_true, ↓reduceIte, Option.some.injEq]
    grind
  · simp only [beq_iff_eq, same, ↓reduceIte]
    grind

/-- Arguments still stand before their terms after a node with known arguments is added. -/
theorem descending_push (s : Store) (added : Node) (fits : ∀ a ∈ added.args, a < s.nodes.size)
    (t : TermId) (node : Node) (found : (s.nodes.push added)[t]? = some node) :
    ∀ a ∈ node.args, a < t := by
  rw [Array.getElem?_push] at found
  split at found
  · next last =>
    obtain rfl := Option.some.inj found
    exact last ▸ fits
  · exact s.descending t node found

/-- A term that is there is still there after a node is added. -/
theorem getElem?_push_of_some (s : Store) (added : Node) {t : TermId} {node : Node}
    (found : s.nodes[t]? = some node) : (s.nodes.push added)[t]? = some node := by
  obtain ⟨inside, _⟩ := Array.getElem?_eq_some_iff.mp found
  rw [Array.getElem?_push, if_neg (Nat.ne_of_lt inside), found]

/-- Add a new node whose arguments are there. -/
def add (s : Store) (node : Node) (new : s.table[node]? = none)
    (fits : ∀ a ∈ node.args, a < s.nodes.size) : Store :=
  let t := s.nodes.size
  { s with
    nodes := s.nodes.push node
    table := s.table.insert node t
    exact := s.exact_push node new
    descending := s.descending_push node fits
    startsTrue := s.getElem?_push_of_some node s.startsTrue
    thenFalse := s.getElem?_push_of_some node s.thenFalse }

/-- Every term that was there before is there after, at its position. -/
def Extends (before after : Store) : Prop :=
  ∀ (t : TermId) (node : Node), before.nodes[t]? = some node → after.nodes[t]? = some node

namespace Extends

/-- A store extends itself. -/
theorem refl (s : Store) : s.Extends s := fun _ _ found => found

/-- An extension of an extension is an extension. -/
theorem trans {first second third : Store} (early : first.Extends second)
    (late : second.Extends third) : first.Extends third :=
  fun t node found => late t node (early t node found)

end Extends

end Store

/-- A computation that builds terms and keeps those that are there. -/
structure Terms (α : Type) where
  /-- The result and the store after the computation. -/
  run : Store → α × Store
  /-- No term is lost. -/
  grows : ∀ s : Store, s.Extends (run s).2

namespace Terms

variable {α β : Type}

/-- Computations with the same results and stores are the same. -/
theorem ext {first second : Terms α} (same : ∀ s, first.run s = second.run s) :
    first = second := by
  obtain ⟨run, _⟩ := first
  obtain ⟨other, _⟩ := second
  obtain rfl : run = other := funext same
  rfl

/-- A result without a computation. -/
@[always_inline, inline]
protected def pure (a : α) : Terms α where
  run s := (a, s)
  grows := .refl

/-- One computation after the other. -/
@[always_inline, inline]
protected def bind (work : Terms α) (next : α → Terms β) : Terms β where
  run s :=
    let (a, s) := work.run s
    (next a).run s
  grows s := (work.grows s).trans ((next (work.run s).1).grows _)

/-- The store. -/
@[always_inline, inline]
protected def read : Terms Store where
  run s := (s, s)
  grows := .refl

@[always_inline]
instance : Monad Terms where
  pure := Terms.pure
  bind := Terms.bind

@[always_inline]
instance : MonadReaderOf Store Terms where
  read := Terms.read

/-- Nothing is built by a result alone. -/
@[simp] theorem run_pure (a : α) (s : Store) : (pure a : Terms α).run s = (a, s) := rfl

/-- The second computation starts from the store of the first. -/
@[simp] theorem run_bind (work : Terms α) (next : α → Terms β) (s : Store) :
    (work >>= next).run s = (next (work.run s).1).run (work.run s).2 := rfl

/-- Reading gives the store. -/
@[simp] theorem run_read (s : Store) : (read : Terms Store).run s = (s, s) := rfl

instance : LawfulMonad Terms :=
  .mk' Terms (fun _ => ext fun _ => rfl) (fun _ _ => ext fun _ => rfl)
    (fun _ _ _ => ext fun _ => rfl)

/-- Change what the store records beside its terms. -/
@[inline] def record (change : Store → Store) (keeps : ∀ s : Store, s.Extends (change s)) :
    Terms Unit :=
  ⟨fun s => ((), change s), keeps⟩

/-- Record a sort as used. -/
def recordSort (sort : TermSort) : Terms Unit :=
  record (·.withSort sort) fun s => by
    unfold Store.withSort
    split
    · exact .refl s
    · exact fun _ _ found => found

/-- Record names as used. -/
def recordNames (names : List String) : Terms Unit :=
  record (·.withNames names) fun s => by
    induction names generalizing s with
    | nil => exact .refl s
    | cons name rest tail => exact fun t node found => tail (s.withName name) t node found

/-- Record the number of fresh names tried. -/
def recordFreshCount (count : Nat) : Terms Unit :=
  record (·.withFreshCount count) fun _ _ _ found => found

/-- The position of a node, which is added to the store if it is new. The arguments of a node come
from the store, so the default is never seen. -/
def intern (node : Node) : Terms TermId where
  run s :=
    match new : s.table[node]? with
    | some t => (t, s)
    | none =>
      if fits : ∀ a ∈ node.args, a < s.nodes.size then (s.nodes.size, s.add node new fits)
      else (Store.falseId, s)
  grows s := by
    split
    · exact .refl s
    · split
      · exact fun t found there => s.getElem?_push_of_some node there
      · exact .refl s

/-- Record a sort and the sorts it is built from as used. -/
def declareSort (sort : TermSort) : Terms Unit := do
  match sort with
  | .array domain range =>
    declareSort domain
    declareSort range
  | .named name => recordNames [name]
  | _ => pure ()
  recordSort sort

/-- The application of an operator whose sort follows from its arguments. -/
def mkApp (op : Op) (args : List TermId) : Terms TermId := do
  let sort := (← read).inferSort op args
  match op with
  | .bitVec .. | .bvConcat | .bvExtract .. => recordSort sort
  | _ => pure ()
  intern ⟨op, args, sort⟩

/-- A truth value. -/
def ofBool (b : Bool) : TermId := if b then Store.trueId else Store.falseId

/-- A constant. -/
def mkVar (name : String) (sort : TermSort) : Terms TermId := do
  recordNames [name]
  intern ⟨.var name, [], sort⟩

/-- The number of the first fresh name that is not used: of the names numbered from `count` on,
one past the used ones is always free. -/
def firstUnused (names : Std.HashSet String) (stem : String) : Nat → Nat → Nat
  | 0, count => count
  | tries + 1, count =>
    if names.contains (stem ++ "!" ++ toString count) then firstUnused names stem tries (count + 1)
    else count

/-- A constant with a name that was not used before: the stem and a number. -/
def mkFresh (stem : String) (sort : TermSort) : Terms TermId := do
  let s ← read
  let count := firstUnused s.names stem (s.names.size + 1) s.freshCount
  recordFreshCount (count + 1)
  mkVar (stem ++ "!" ++ toString count) sort

/-- An integer literal. -/
def mkInt (n : Int) : Terms TermId := intern ⟨.int n, [], .int⟩

/-- A rational literal of the real sort. -/
def mkReal (r : Rat) : Terms TermId := intern ⟨.real r, [], .real⟩

/-- A rational literal: of the integer sort if that is asked for and the value is an integer. -/
def mkNumeral (r : Rat) (isInt : Bool) : Terms TermId :=
  if isInt && Rational.isIntegral r then mkInt r.num else mkReal r

/-- A literal of the real sort. -/
def mkRealNumeral : Numeral → Terms TermId
  | .rational r => mkReal r
  | .irrational a => mkApp (.algebraic a.canonical) []

/-- The number pi. -/
def mkPi : Terms TermId := mkApp .pi []

/-- A bit-vector literal, reduced modulo two to its width. -/
def mkBitVec (value : Int) (width : Nat) : Terms TermId :=
  mkApp (.bitVec (value % Int.ofNat (Nat.pow 2 width)).toNat width) []

/-- Negation. -/
def mkNot (a : TermId) : Terms TermId := mkApp .not [a]

/-- Conjunction; `true` of no terms, and the term itself of one. -/
def mkAnd : List TermId → Terms TermId
  | [] => pure Store.trueId
  | [a] => pure a
  | args => mkApp .and args

/-- Disjunction; `false` of no terms, and the term itself of one. -/
def mkOr : List TermId → Terms TermId
  | [] => pure Store.falseId
  | [a] => pure a
  | args => mkApp .or args

/-- Equality. -/
def mkEq (a b : TermId) : Terms TermId := mkApp .eq [a, b]

/-- If-then-else. -/
def mkIte (condition a b : TermId) : Terms TermId := mkApp .ite [condition, a, b]

/-- Sum; the term itself of one. -/
def mkAdd : List TermId → Terms TermId
  | [a] => pure a
  | args => mkApp .add args

/-- Product; the term itself of one. -/
def mkMul : List TermId → Terms TermId
  | [a] => pure a
  | args => mkApp .mul args

/-- Application of a function without an interpretation. -/
def mkApply (function : String) (args : List TermId) (sort : TermSort) : Terms TermId := do
  recordNames [function]
  intern ⟨.apply function, args, sort⟩

/-- Record the names of bound variables as used. -/
def declareBinders (vars : List Binder) : Terms Unit := recordNames (vars.map (·.name))

/-- Universal quantification. -/
def mkForall (vars : List Binder) (body : TermId) : Terms TermId := do
  declareBinders vars
  intern ⟨.universal vars, [body], .bool⟩

/-- Existential quantification. -/
def mkExists (vars : List Binder) (body : TermId) : Terms TermId := do
  declareBinders vars
  intern ⟨.existential vars, [body], .bool⟩

/-- The term with other arguments; applications and quantifiers keep their sort. -/
def rebuild (t : TermId) (args : List TermId) : Terms TermId := do
  let n := (← read).node t
  if n.args = args then return t
  else if n.op.hasOwnSort then intern { n with args }
  else mkApp n.op args

end Terms
end Stratagem
