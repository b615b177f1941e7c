import Stratagem.Parameter

/-!
# Configuration of the bit-blaster

Which bit-vector operations are encoded, and the limits of a run.
-/
namespace Stratagem

/-- Choices of the bit-blaster. -/
structure BlastConfig where
  /-- Encode sums, differences and negations. -/
  add : Bool := true
  /-- Encode products. -/
  mul : Bool := true
  /-- Encode variables bound by quantifiers. -/
  quantified : Bool := false
  /-- Encode applications of functions without an interpretation. -/
  full : Bool := false
  /-- Most memory in megabytes. -/
  maxMemory : Nat := 18446744073709551615
  /-- Most steps of a run. -/
  maxSteps : Nat := 18446744073709551615
  deriving DecidableEq, Repr

namespace BlastConfig

/-- The parameters of the bit-blaster. -/
def descrs : ParamDescrs := .ofList [
  ("max-memory", .uint 18446744073709551615, "maximum amount of memory in megabytes"),
  ("max-steps", .uint 18446744073709551615, "maximum number of steps"),
  ("blast-add", .bool true, "bit-blast adders"),
  ("blast-mul", .bool true, "bit-blast multipliers"),
  ("blast-quant", .bool false, "bit-blast quantified variables"),
  ("blast-full", .bool false,
    "bit-blast any term with bit-vector sort, including uninterpreted applications")]

/-- Read the fields that are set. -/
def update (p : Params) : Update BlastConfig Unit := do
  Update.uint p "max-memory" (·.maxMemory) fun c v => { c with maxMemory := v }
  Update.uint p "max-steps" (·.maxSteps) fun c v => { c with maxSteps := v }
  Update.bool p "blast-add" (·.add) fun c v => { c with add := v }
  Update.bool p "blast-mul" (·.mul) fun c v => { c with mul := v }
  Update.bool p "blast-quant" (·.quantified) fun c v => { c with quantified := v }
  Update.bool p "blast-full" (·.full) fun c v => { c with full := v }

/-- The parameters of a configuration. -/
def toParams (c : BlastConfig) : Params := .ofList [
  ("max-memory", .uint c.maxMemory), ("max-steps", .uint c.maxSteps), ("blast-add", .bool c.add),
  ("blast-mul", .bool c.mul), ("blast-quant", .bool c.quantified), ("blast-full", .bool c.full)]

/-- Most memory in bytes, at most the largest word of 64 bits; the largest number of megabytes
stands for no limit. -/
def memoryLimit? (c : BlastConfig) : Option Nat :=
  if c.maxMemory = 18446744073709551615 then none
  else some (Nat.min (c.maxMemory * 1048576) 18446744073709551615)

end BlastConfig
end Stratagem
