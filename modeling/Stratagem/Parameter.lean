import Stratagem.Error
import Stratagem.Number.Decimal

/-!
# Parameters

Named values that configure tactics, and tables that describe the names a tactic understands. A
name is normalised when it is used: leading colons are dropped and an underscore counts as a
hyphen. Values and descriptions are kept in the order of their names.
-/
namespace Stratagem

/-- Lists of values under distinct names, in increasing order of the names. -/
abbrev Named (α : Type) := List (String × α)

namespace Named

variable {α : Type}

/-- Put a value under a name, in place of a value already there. -/
def insert (name : String) (value : α) : Named α → Named α
  | [] => [(name, value)]
  | (other, held) :: rest =>
    if name < other then (name, value) :: (other, held) :: rest
    else if name = other then (name, value) :: rest
    else (other, held) :: insert name value rest

/-- The value under a name. -/
def find? (entries : Named α) (name : String) : Option α := List.lookup name entries

/-- Remove the value under a name. -/
def erase (name : String) (entries : Named α) : Named α := entries.filter (·.1 != name)

end Named

/-- The kind of a parameter. -/
inductive ParamKind where
  | bool
  | uint
  | double
  | symbol
  deriving DecidableEq, Repr

/-- The name of a kind. -/
def ParamKind.text : ParamKind → String
  | bool => "bool"
  | uint => "unsigned int"
  | double => "double"
  | symbol => "symbol"

/-- The value of a parameter. -/
inductive ParamValue where
  | bool (value : Bool)
  | uint (value : Nat)
  | double (value : Float)
  | symbol (value : String)

namespace ParamValue

/-- The kind of a value. -/
def kind : ParamValue → ParamKind
  | bool _ => .bool
  | uint _ => .uint
  | double _ => .double
  | symbol _ => .symbol

/-- The text of a value. -/
def text : ParamValue → String
  | bool true => "true"
  | bool false => "false"
  | uint n => toString n
  | double x => Decimal.text x
  | symbol s => s

end ParamValue

/-- A set of named parameter values. -/
structure Params where
  /-- Values in the order of their names. -/
  entries : Named ParamValue := []

namespace Params

/-- The normal form of a name. -/
def normalize (name : String) : String :=
  String.ofList ((name.toList.dropWhile (· = ':')).map fun c => if c = '_' then '-' else c)

/-- Set a value. -/
def set (p : Params) (name : String) (value : ParamValue) : Params :=
  ⟨Named.insert (normalize name) value p.entries⟩

/-- The value set under a name. -/
def get? (p : Params) (name : String) : Option ParamValue := Named.find? p.entries (normalize name)

/-- Whether a value is set under a name. -/
def contains (p : Params) (name : String) : Bool := (p.get? name).isSome

/-- Remove the value under a name. -/
def erase (p : Params) (name : String) : Params := ⟨Named.erase (normalize name) p.entries⟩

/-- Set all values of another set. -/
def merge (p other : Params) : Params :=
  ⟨other.entries.foldl (fun entries (name, value) => Named.insert name value entries) p.entries⟩

/-- The parameters of a list of names and values, set in order. -/
def ofList (entries : List (String × ParamValue)) : Params :=
  entries.foldl (fun p (name, value) => p.set name value) {}

/-- The reason for refusing a value of the wrong kind. -/
def mismatchReason (expected found : ParamKind) : String :=
  "expected " ++ expected.text ++ ", found " ++ found.text

/-- The error for a value of the wrong kind. -/
def mismatch (name : String) (expected : ParamKind) (found : ParamValue) : Error :=
  .invalidParameter (normalize name) (mismatchReason expected found.kind)

/-- A truth value, or a default when none is set. -/
def getBool (p : Params) (name : String) (default : Bool) : Except Error Bool :=
  match p.get? name with
  | none => .ok default
  | some (.bool b) => .ok b
  | some value => .error (mismatch name .bool value)

/-- An unsigned number, or a default when none is set. -/
def getUInt (p : Params) (name : String) (default : Nat) : Except Error Nat :=
  match p.get? name with
  | none => .ok default
  | some (.uint n) => .ok n
  | some value => .error (mismatch name .uint value)

/-- A double, or a default when none is set; an unsigned number is converted. -/
def getDouble (p : Params) (name : String) (default : Float) : Except Error Float :=
  match p.get? name with
  | none => .ok default
  | some (.double x) => .ok x
  | some (.uint n) => .ok (Binary64.ofRat (Rational.ofInt (Int.ofNat n)))
  | some value => .error (mismatch name .double value)

/-- A symbol, or a default when none is set. -/
def getSymbol (p : Params) (name default : String) : Except Error String :=
  match p.get? name with
  | none => .ok default
  | some (.symbol s) => .ok s
  | some value => .error (mismatch name .symbol value)

/-- The text of a set of parameters. -/
def text (p : Params) : String :=
  "(params" ++ String.join (p.entries.map fun (name, value) => " " ++ name ++ " " ++ value.text) ++
    ")"

end Params

/-- The description of a parameter. -/
structure ParamDescr where
  /-- Normalised name. -/
  name : String
  /-- Default value, whose kind is the kind of the parameter. -/
  default : ParamValue
  /-- What the parameter does. -/
  description : String

/-- The kind of a described parameter. -/
def ParamDescr.kind (d : ParamDescr) : ParamKind := d.default.kind

/-- A table of descriptions. -/
structure ParamDescrs where
  /-- Descriptions in the order of their names. -/
  entries : Named ParamDescr := []

namespace ParamDescrs

/-- Describe a parameter; a later description of a name replaces an earlier one. -/
def insert (table : ParamDescrs) (name : String) (default : ParamValue) (description : String) :
    ParamDescrs :=
  let name := Params.normalize name
  ⟨Named.insert name ⟨name, default, description⟩ table.entries⟩

/-- The table of a list of names, defaults and descriptions, described in order. -/
def ofList (entries : List (String × ParamValue × String)) : ParamDescrs :=
  entries.foldl (fun table (name, default, text) => table.insert name default text) {}

/-- The descriptions of two tables; those of the second replace those of the first. -/
def union (table other : ParamDescrs) : ParamDescrs :=
  ⟨other.entries.foldl (fun entries (name, d) => Named.insert name d entries) table.entries⟩

/-- The description of a parameter. -/
def get? (table : ParamDescrs) (name : String) : Option ParamDescr :=
  Named.find? table.entries (Params.normalize name)

/-- Check one value: its name is described, and its kind is the described one or is converted to
it. -/
def validateEntry (table : ParamDescrs) (name : String) (value : ParamValue) :
    Except Error Unit :=
  match Named.find? table.entries name with
  | none => .error (.invalidParameter name "unknown parameter")
  | some d =>
    if d.kind = value.kind ∨ d.kind = .double ∧ value.kind = .uint then .ok ()
    else .error (.invalidParameter name (Params.mismatchReason d.kind value.kind))

/-- Check that every value of a set is described, in the order of the names. -/
def validate (table : ParamDescrs) (p : Params) : Except Error Unit :=
  p.entries.forM fun (name, value) => table.validateEntry name value

/-- The defaults of all described parameters. -/
def defaults (table : ParamDescrs) : Params :=
  .ofList (table.entries.map fun (name, d) => (name, d.default))

/-- The descriptions in the order of their names. -/
def toList (table : ParamDescrs) : List ParamDescr := table.entries.map (·.2)

end ParamDescrs

/-- A change of a configuration by parameters, which may fail half way and then keeps what it has
changed so far. -/
abbrev Update (σ : Type) := ExceptT Error (StateM σ)

namespace Update

variable {σ : Type}

/-- Read a truth value into a field. -/
def bool (p : Params) (name : String) (field : σ → Bool) (put : σ → Bool → σ) :
    Update σ Unit := do
  let value ← p.getBool name (field (← get))
  modify (put · value)

/-- Read an unsigned number into a field. -/
def uint (p : Params) (name : String) (field : σ → Nat) (put : σ → Nat → σ) :
    Update σ Unit := do
  let value ← p.getUInt name (field (← get))
  modify (put · value)

/-- The outcome of a change and the configuration it leaves. -/
def apply (update : Update σ Unit) (config : σ) : Except Error Unit × σ := update.run config

/-- The changed configuration, if the change succeeds. -/
def result (update : Update σ Unit) (config : σ) : Except Error σ :=
  match update.apply config with
  | (.ok (), changed) => .ok changed
  | (.error e, _) => .error e

end Update
end Stratagem
