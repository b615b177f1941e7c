import Stratagem.Rewriting.Simplifier

/-!
# Models

A model assigns values to constants. Assignments stand in the order in which their constants were
first assigned, and an index has the position of each. A term is evaluated by substituting the
values and simplifying the result.
-/
namespace Stratagem

namespace Model

/-- An index knows the constants of a list, each at its position, and nothing else. -/
def Locates (index : Std.HashMap TermId Nat) (constants : List TermId) : Prop :=
  ∀ (c : TermId) (i : Nat), index[c]? = some i ↔ constants[i]? = some c

namespace Locates

variable {index : Std.HashMap TermId Nat} {constants : List TermId} {c : TermId}
  {i j position : Nat}

/-- A constant stands at one position. -/
theorem unique (locates : Locates index constants) (here : constants[i]? = some c)
    (there : constants[j]? = some c) : i = j :=
  Option.some.inj (((locates c i).mpr here).symm.trans ((locates c j).mpr there))

/-- A constant that the index does not know stands nowhere. -/
theorem absent (locates : Locates index constants) (unknown : index[c]? = none) (i : Nat) :
    constants[i]? ≠ some c := fun here => by
  rw [(locates c i).mpr here] at unknown
  cases unknown

/-- The empty index knows no constants. -/
theorem nil : Locates ∅ [] := by simp [Locates]

/-- A constant that is new stands last. -/
theorem append (locates : Locates index constants) (unknown : index[c]? = none) :
    Locates (index.insert c constants.length) (constants ++ [c]) := by
  intro k i
  rw [Std.HashMap.getElem?_insert, List.getElem?_append]
  by_cases same : c = k
  · subst same
    rw [if_pos BEq.rfl, Option.some_inj]
    split
    · next inside => exact iff_of_false (Nat.ne_of_gt inside) (locates.absent unknown i)
    · next outside =>
      rw [List.getElem?_singleton]
      split <;> simp <;> omega
  · rw [if_neg (by simpa using same), locates k i]
    split
    · rfl
    · next outside =>
      have missing : constants[i]? = none := List.getElem?_eq_none (Nat.le_of_not_lt outside)
      simp [missing, List.getElem?_singleton, same]

/-- Without one of the constants those after it stand one earlier. -/
theorem eraseIdx (locates : Locates index constants) (found : index[c]? = some position) :
    Locates ((index.erase c).map fun _ slot => if position < slot then slot - 1 else slot)
      (constants.eraseIdx position) := by
  intro k i
  rw [Std.HashMap.getElem?_map, Std.HashMap.getElem?_erase, List.getElem?_eraseIdx]
  have here : constants[position]? = some c := (locates c position).mp found
  by_cases same : c = k
  · subst same
    rw [if_pos BEq.rfl, Option.map_none]
    refine iff_of_false nofun ?_
    split
    · next early => exact fun there => Nat.ne_of_lt early (locates.unique there here)
    · next late => exact fun there => late (locates.unique there here ▸ Nat.lt_succ_self i)
  · rw [if_neg (by simpa using same)]
    cases there : index[k]? with
    | none =>
      refine iff_of_false nofun ?_
      split
      · exact locates.absent there i
      · exact locates.absent there (i + 1)
    | some j =>
      have stands : constants[j]? = some k := (locates k j).mp there
      have only (n : Nat) : constants[n]? = some k ↔ n = j :=
        ⟨fun other => locates.unique other stands, fun equal => equal ▸ stands⟩
      have other : j ≠ position := by
        rintro rfl
        exact same (Option.some.inj (here.symm.trans stands))
      rw [Option.map_some, Option.some_inj]
      split <;> split <;> rw [only] <;> omega

end Locates

end Model

/-- An assignment of values to constants. -/
structure Model where
  /-- Constants with their values, in order of assignment. -/
  entries : List (TermId × TermId) := []
  /-- The position of each constant. -/
  index : Std.HashMap TermId Nat := ∅
  /-- The index knows the constants that are assigned. -/
  located : Model.Locates index (entries.map Prod.fst) := by exact Model.Locates.nil

namespace Model

/-- The value of a constant. -/
def get? (m : Model) (var : TermId) : Option TermId :=
  m.index[var]?.bind fun i => m.entries[i]?.map Prod.snd

/-- Whether a constant is assigned. -/
def contains (m : Model) (var : TermId) : Bool := m.index.contains var

/-- A new value does not move a constant. -/
theorem map_fst_set {entries : List (TermId × TermId)} {position : Nat} {var : TermId}
    (found : (entries.map Prod.fst)[position]? = some var) (value : TermId) :
    (entries.set position (var, value)).map Prod.fst = entries.map Prod.fst := by
  obtain ⟨inside, same⟩ := List.getElem?_eq_some_iff.mp found
  rw [List.map_set, ← same, List.set_getElem_self]

/-- The constants without an entry. -/
theorem map_fst_eraseIdx (entries : List (TermId × TermId)) (position : Nat) :
    (entries.eraseIdx position).map Prod.fst = (entries.map Prod.fst).eraseIdx position := by
  apply List.ext_getElem?
  intro i
  rw [List.getElem?_map, List.getElem?_eraseIdx, List.getElem?_eraseIdx, List.getElem?_map,
    List.getElem?_map]
  split <;> rfl

/-- Assign a value to a constant, in the place of its former value if it has one. -/
def insert (m : Model) (var value : TermId) : Model :=
  match found : m.index[var]? with
  | some i =>
    { entries := m.entries.set i (var, value)
      index := m.index
      located := by rw [map_fst_set ((m.located var i).mp found)]; exact m.located }
  | none =>
    { entries := m.entries ++ [(var, value)]
      index := m.index.insert var m.entries.length
      located := by simpa using m.located.append found }

/-- Drop the value of a constant; the constants assigned after it move up. -/
def erase (m : Model) (var : TermId) : Model :=
  match found : m.index[var]? with
  | some i =>
    { entries := m.entries.eraseIdx i
      index := (m.index.erase var).map fun _ slot => if i < slot then slot - 1 else slot
      located := by rw [map_fst_eraseIdx]; exact m.located.eraseIdx found }
  | none => m

/-- The model of a list of assignments, made in order. -/
def ofList (entries : List (TermId × TermId)) : Model :=
  entries.foldl (fun m (var, value) => m.insert var value) {}

/-- The default value of a sort. -/
def defaultOf : TermSort → Terms (Option TermId)
  | .bool => return some Store.falseId
  | .int => return some (← Terms.mkInt 0)
  | .real => return some (← Terms.mkReal 0)
  | .bitVec width => return some (← Terms.mkBitVec 0 width)
  | _ => return none

/-- Give default values to constants that have none. -/
def complete (map : Substitution) : List TermId → Terms Substitution
  | [] => return map
  | c :: rest => do
    if map.contains c then complete map rest
    else
      match ← defaultOf ((← read).sortOf c) with
      | some value => complete (map.insert c value) rest
      | none => complete map rest

/-- The value of a term; with completion, constants without a value get the default of their
sort. -/
def eval (m : Model) (t : TermId) (completion : Bool) : Terms (Except Error TermId) := do
  let given : Substitution := .ofList m.entries
  let map ← if completion then complete given ((← read).freeConstants t) else pure given
  Terms.simplify (← Terms.substitute t map)

/-- The text of a model: one definition a line. -/
def text (m : Model) (s : Store) : String :=
  let line (entry : TermId × TermId) : String :=
    "\n  (define-fun " ++ s.text entry.1 ++ " " ++ s.text entry.2 ++ ")"
  "(model" ++ String.join (m.entries.map line) ++ ")"

end Model
end Stratagem
