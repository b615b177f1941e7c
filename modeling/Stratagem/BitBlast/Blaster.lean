import Stratagem.BitBlast.Circuit
import Stratagem.BitBlast.Config
import Stratagem.Budget
import Stratagem.Term.Text
import Stratagem.Term.Traversal

/-!
# The bit-blaster

Every bit-vector constant is replaced by boolean constants for its bits, named after it and the
position of the bit, and every bit-vector operation by its circuit. An atom with an operation that
is not to be encoded is kept as it is, and then the constants that occur in it stay as well. A
variable bound by a quantifier is replaced by bound bits, unless an atom that is kept mentions it;
then the whole quantifier is kept.
-/
namespace Stratagem

/-- Counts of the bit-blaster over all runs. -/
structure BlastStats where
  /-- Bit-vector constants replaced by bits. -/
  constants : Nat := 0
  /-- Boolean constants introduced. -/
  bits : Nat := 0
  /-- Atoms turned into circuits. -/
  blasted : Nat := 0
  /-- Atoms and quantifiers left as they are. -/
  kept : Nat := 0
  /-- Steps of the last complete run. -/
  steps : Nat := 0
  deriving DecidableEq, Repr

/-- What is known inside one quantifier, or outside of all. -/
structure BlastScope where
  /-- Bits of the variables that the quantifier binds. -/
  bound : Std.HashMap TermId Bits := ∅
  /-- Whether a kept atom mentions one of them. -/
  escaped : Bool := false
  /-- Bits of the terms met in the scope. -/
  terms : Std.HashMap TermId Bits := ∅
  /-- Encodings of the formulas met in the scope. -/
  formulas : Std.HashMap TermId TermId := ∅

/-- The working state of a run. -/
structure BlastWork where
  /-- Bits of the bit-vector constants, in order of first use. -/
  constants : Array (TermId × Bits) := #[]
  /-- Bits of the applications, in order of first use. -/
  applications : Array (TermId × Bits) := #[]
  /-- Bit-vector constants that occur in kept atoms. -/
  kept : Std.HashSet TermId := ∅
  /-- Whether every operation of a term is to be encoded. -/
  support : Std.HashMap TermId Bool := ∅
  /-- The scope outside of all quantifiers. -/
  outer : BlastScope := {}
  /-- The scopes of the quantifiers around, the innermost first. -/
  inner : List BlastScope := []
  /-- Steps so far. -/
  steps : Nat := 0

/-- A bit-blaster. -/
structure Blaster where
  /-- Choices of the bit-blaster. -/
  config : BlastConfig := {}
  /-- Counts over all runs. -/
  stats : BlastStats := {}
  /-- Working state of the current run. -/
  work : BlastWork := {}

namespace BlastWork

/-- The innermost scope. -/
def scope (w : BlastWork) : BlastScope := w.inner.head?.getD w.outer

/-- Change the innermost scope. -/
def modifyScope (w : BlastWork) (f : BlastScope → BlastScope) : BlastWork :=
  match w with
  | ⟨constants, applications, kept, support, outer, [], steps⟩ =>
    ⟨constants, applications, kept, support, f outer, [], steps⟩
  | ⟨constants, applications, kept, support, outer, scope :: rest, steps⟩ =>
    ⟨constants, applications, kept, support, outer, f scope :: rest, steps⟩

/-- The bits of a variable that a quantifier around binds. -/
def boundBits? (w : BlastWork) (t : TermId) : Option Bits := w.inner.findSome? (·.bound[t]?)

/-- Record that a bit-vector constant occurs in a kept atom. -/
def keepConstant (w : BlastWork) (c : TermId) : BlastWork :=
  if w.inner.any (·.bound.contains c) then
    let escape (scope : BlastScope) : BlastScope :=
      if scope.bound.contains c then { scope with escaped := true } else scope
    { w with inner := w.inner.map escape }
  else { w with kept := w.kept.insert c }

/-- Record that a formula or an application stays as it is. -/
def keep (w : BlastWork) (s : Store) (f : TermId) : BlastWork :=
  ((s.freeConstants f).filter fun c => (s.sortOf c).width?.isSome).foldl keepConstant w

end BlastWork

namespace Blaster

/-- Whether the operations of a term are to be encoded, given the terms judged so far. -/
def supports (config : BlastConfig) (s : Store) :
    Nat → TermId → StateM (Std.HashMap TermId Bool) Bool
  | 0, _ => return false
  | depth + 1, t => do
    match (← get)[t]? with
    | some known => return known
    | none =>
      let both (a b : TermId) : StateM (Std.HashMap TermId Bool) Bool := do
        if ← supports config s depth a then supports config s depth b else return false
      let answer ← match s.view t with
        | (.bitVec .., _) | (.var _, _) => pure true
        | (.bvNot, [a]) | (.bvExtract .., [a]) => supports config s depth a
        | (.bvAnd, [a, b]) | (.bvOr, [a, b]) | (.bvXor, [a, b]) | (.bvConcat, [a, b])
        | (.ite, [_, a, b]) => both a b
        | (.bvNeg, [a]) => if config.add then supports config s depth a else pure false
        | (.bvAdd, [a, b]) | (.bvSub, [a, b]) => if config.add then both a b else pure false
        | (.bvMul, [a, b]) => if config.mul then both a b else pure false
        | (.apply _, _) => pure config.full
        | _ => pure false
      modify (·.insert t answer)
      return answer

/-- Whether the operations of all terms are to be encoded. -/
def supportsAll (args : List TermId) : Attempt Blaster Bool := do
  let s ← readThe Store
  modifyGet fun ⟨config, stats, work⟩ =>
    let support := work.support
    let work := { work with support := ∅ }
    let (answer, support) := (args.allM fun t => supports config s (t + 1) t).run support
    (answer, ⟨config, stats, { work with support }⟩)

/-- Record that a formula or an application stays as it is. -/
def keep (f : TermId) : Attempt Blaster Unit := do
  let s ← readThe Store
  modify fun b => { b with work := b.work.keep s f }

/-- Steps between two checks of the circumstances. -/
def checkInterval : Nat := 256

/-- Fail if the terms take more memory than the configuration allows. -/
def checkMemory : Attempt Blaster Unit := do
  match (← get).config.memoryLimit? with
  | some limit => if limit < (← readThe Store).memory then throw (.memoryExceeded limit)
  | none => return ()

/-- Count a step: fail if there are too many, and now and then check the circumstances. -/
def step (context : Context) : Attempt Blaster Unit := do
  modify fun ⟨config, stats, work⟩ => ⟨config, stats, { work with steps := work.steps + 1 }⟩
  let b ← get
  if b.config.maxSteps < b.work.steps then throw (.stepsExceeded b.config.maxSteps)
  else if b.work.steps % checkInterval = 0 then
    checkMemory
    Attempt.check context
  else return ()

/-- The names of the bits of a constant. -/
def bitNames (name : String) (width : Nat) : List String :=
  (List.range width).map fun i => name ++ "!" ++ toString i

/-- The bits of a bit-vector constant, introduced on first use. -/
def constantBits (t : TermId) : Attempt Blaster Bits := do
  let work := (← get).work
  match (work.boundBits? t).or ((work.constants.find? (·.1 == t)).map (·.2)) with
  | some bits => return bits
  | none =>
    let s ← readThe Store
    match s.varName? t, (s.sortOf t).width? with
    | some name, some width =>
      let bits ← Attempt.build ((bitNames name width).mapM fun n => Terms.mkVar n .bool)
      modify fun ⟨config, stats, work⟩ => ⟨config,
        { stats with constants := stats.constants + 1, bits := stats.bits + width },
        { work with constants := work.constants.push (t, bits) }⟩
      return bits
    | _, _ => throw (.internal s!"term {t} is not a bit-vector constant")

/-- Fresh bits that stand for an application, introduced on first use. -/
def applicationBits (t : TermId) : Attempt Blaster Bits := do
  match (← get).work.applications.find? (·.1 == t) with
  | some (_, bits) => return bits
  | none =>
    match ((← readThe Store).sortOf t).width? with
    | some width =>
      let bits ← Attempt.build ((List.range width).mapM fun _ => Terms.mkFresh "bv" .bool)
      modify fun ⟨config, stats, work⟩ =>
        ⟨config, { stats with bits := stats.bits + width }, work⟩
      keep t
      modify fun ⟨config, stats, work⟩ => ⟨config, stats,
        { work with applications := work.applications.push (t, bits) }⟩
      return bits
    | none => throw (.internal s!"term {t} is not a bit-vector")

/-- Remember the bits of a term in the innermost scope. -/
def rememberTerm (t : TermId) (bits : Bits) : Attempt Blaster Unit :=
  modify fun ⟨config, stats, work⟩ => ⟨config, stats,
    work.modifyScope fun scope => { scope with terms := scope.terms.insert t bits }⟩

/-- Remember the encoding of a formula in the innermost scope. -/
def rememberFormula (f encoding : TermId) : Attempt Blaster Unit :=
  modify fun ⟨config, stats, work⟩ => ⟨config, stats,
    work.modifyScope fun scope => { scope with formulas := scope.formulas.insert f encoding }⟩

/-- Leave an atom or a quantifier as it is. -/
def keepAtom (f : TermId) : Attempt Blaster TermId := do
  modify fun ⟨config, stats, work⟩ => ⟨config, { stats with kept := stats.kept + 1 }, work⟩
  keep f
  return f

/-- Bound variables after the encoding, and the bits of those that are bit-vectors. -/
def bindBits : List Binder → Terms (List Binder × Std.HashMap TermId Bits)
  | [] => return ([], ∅)
  | b :: rest => do
    match b.sort.width? with
    | some width =>
      let v ← Terms.mkVar b.name b.sort
      let names := bitNames b.name width
      let bits ← names.mapM fun n => Terms.mkVar n .bool
      let (binders, bound) ← bindBits rest
      return (names.map (⟨·, .bool⟩) ++ binders, bound.insert v bits)
    | none =>
      let (binders, bound) ← bindBits rest
      return (b :: binders, bound)

/-- Enter the scope of a quantifier. -/
def enter (bound : Std.HashMap TermId Bits) : Attempt Blaster Unit :=
  modify fun ⟨config, stats, work⟩ =>
    ⟨config, stats, { work with inner := { bound } :: work.inner }⟩

/-- Leave the innermost scope; the answer is whether a variable of it escaped. -/
def leave : Attempt Blaster Bool :=
  modifyGet fun ⟨config, stats, work⟩ =>
    (work.scope.escaped, ⟨config, stats, { work with inner := work.inner.drop 1 }⟩)

/-- Encode a quantifier by the encoding of its body, or leave it as it is. -/
def quantifier (f : TermId) (vars : List Binder) (body : Attempt Blaster TermId)
    (make : List Binder → TermId → Terms TermId) : Attempt Blaster TermId := do
  if (← get).config.quantified && vars.any (·.sort.width?.isSome) then
    let (binders, bound) ← Attempt.build (bindBits vars)
    enter bound
    let encoding ← body
    if ← leave then
      keep f
      return f
    else Attempt.build (make binders encoding)
  else keepAtom f

/-- The circuit of an atom over the bits of its arguments. -/
abbrev AtomCircuit := List Bits → Terms TermId

/-- The circuit of a predicate on two vectors. -/
def onTwo (circuit : Bits → Bits → Terms TermId) : AtomCircuit
  | [a, b] => circuit a b
  | _ => return Store.falseId

/-- The negated circuit of a predicate on two vectors in the opposite order. -/
def notConverse (circuit : Bits → Bits → Terms TermId) : AtomCircuit :=
  onTwo fun a b => do Gate.not (← circuit b a)

/-- The circuit of the predicate of an atom on bit-vectors. -/
def atomCircuit? (s : Store) (f : TermId) : Option AtomCircuit :=
  let (op, args) := s.view f
  let onBitVec := (args.head?.bind fun a => (s.sortOf a).width?).isSome
  match op with
  | .eq => if onBitVec then some (onTwo Circuit.eq) else none
  | .distinct => if onBitVec then some Circuit.distinct else none
  | .bvUlt => some (onTwo Circuit.ult)
  | .bvUle => some (notConverse Circuit.ult)
  | .bvSlt => some (onTwo Circuit.slt)
  | .bvSle => some (notConverse Circuit.slt)
  | _ => none

/-- Whether a formula is a connective of formulas. -/
def isConnective (s : Store) (f : TermId) : Bool :=
  match s.view f with
  | (.not, _) | (.and, _) | (.or, _) | (.implies, _) | (.xor, _) => true
  | (.ite, _) => s.isBool f
  | (.eq, a :: _) => s.isBool a
  | _ => false

mutual

/-- The bits of a bit-vector term whose operations are all to be encoded. -/
def bits (context : Context) : Nat → TermId → Attempt Blaster Bits
  | 0, _ => throw (.internal "term nested too deeply")
  | depth + 1, t => do
    match (← get).work.scope.terms[t]? with
    | some known => return known
    | none =>
      step context
      let s ← readThe Store
      let two (a b : TermId) (circuit : Bits → Bits → Terms Bits) : Attempt Blaster Bits := do
        let a ← bits context depth a
        let b ← bits context depth b
        Attempt.build (circuit a b)
      let out ← match s.view t with
        | (.bitVec value width, _) => pure (Circuit.ofNat value width)
        | (.var _, _) => constantBits t
        | (.bvNot, [a]) =>
          let a ← bits context depth a
          Attempt.build (a.mapM Gate.not)
        | (.bvAnd, [a, b]) => two a b (Circuit.zipWith Gate.and)
        | (.bvOr, [a, b]) => two a b (Circuit.zipWith Gate.or)
        | (.bvXor, [a, b]) => two a b (Circuit.zipWith Gate.xor)
        | (.bvNeg, [a]) =>
          let a ← bits context depth a
          Attempt.build (Circuit.neg a)
        | (.bvAdd, [a, b]) => two a b fun a b => Circuit.add a b Store.falseId
        | (.bvSub, [a, b]) => two a b Circuit.sub
        | (.bvMul, [a, b]) => two a b Circuit.mul
        | (.bvConcat, [high, low]) => two low high fun low high => return low ++ high
        | (.bvExtract high low, [a]) =>
          let a ← bits context depth a
          if high < a.length then pure ((a.drop low).take (high + 1 - low))
          else throw (.internal "extract out of range")
        | (.ite, [c, a, b]) =>
          let c ← formula context depth c
          two a b (Circuit.zipWith (Gate.mux c))
        | (.apply _, _) => applicationBits t
        | _ => throw (.internal ("cannot blast " ++ s.text t))
      rememberTerm t out
      return out

/-- The formula with its bit-vector atoms encoded. -/
def formula (context : Context) : Nat → TermId → Attempt Blaster TermId
  | 0, _ => throw (.internal "formula nested too deeply")
  | depth + 1, f => do
    match (← get).work.scope.formulas[f]? with
    | some known => return known
    | none =>
      step context
      let s ← readThe Store
      let encoding ←
        if isConnective s f then
          let args ← (s.args f).mapM (formula context depth)
          Attempt.build (Terms.rebuild f args)
        else
          match atomCircuit? s f, s.view f with
          | some circuit, (_, args) =>
            if ← supportsAll args then
              let vectors ← args.mapM (bits context depth)
              modify fun ⟨config, stats, work⟩ =>
                ⟨config, { stats with blasted := stats.blasted + 1 }, work⟩
              Attempt.build (circuit vectors)
            else keepAtom f
          | none, (.universal vars, [body]) =>
            quantifier f vars (formula context depth body) Terms.mkForall
          | none, (.existential vars, [body]) =>
            quantifier f vars (formula context depth body) Terms.mkExists
          | none, _ =>
            keep f
            pure f
      rememberFormula f encoding
      return encoding

end

end Blaster
end Stratagem
