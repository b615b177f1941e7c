import Stratagem.Term.Store

/-!
# Walks over terms

Subterms, free constants, substitution and the measures of a term. A term shares its subterms, so
every walk remembers where it has been. The walk over the subterms of one term keeps a list of what
is left to do, and ends because each term is entered only once. The other walks recurse: arguments
stand at smaller positions than the term, so the position of a term bounds their depth.
-/
namespace Stratagem

/-- The state of a walk over subterms. -/
structure Walk where
  /-- Terms entered so far. -/
  seen : Std.HashSet TermId := ∅
  /-- Terms left so far, in order. -/
  out : Array TermId := #[]

namespace Walk

/-- What is left to do on a walk. -/
inductive Task
  /-- Go into a term. -/
  | enter (t : TermId)
  /-- Come back from a term. -/
  | leave (t : TermId)

/-- The steps that tasks take while no further term is entered. -/
def steps : List Task → Nat
  | [] => 0
  | .enter _ :: tasks => steps tasks + 2
  | .leave _ :: tasks => steps tasks + 1

/-- How many terms below a position are not in a set. -/
def unentered (seen : Std.HashSet TermId) : Nat → Nat
  | 0 => 0
  | limit + 1 => unentered seen limit + if seen.contains limit then 0 else 1

/-- A term that is entered changes nothing below it. -/
theorem unentered_insert_eq {seen : Std.HashSet TermId} {t limit : Nat} (outside : limit ≤ t) :
    unentered (seen.insert t) limit = unentered seen limit := by
  induction limit with
  | zero => rfl
  | succ limit same =>
    have other : t ≠ limit := Nat.ne_of_gt outside
    rw [unentered, unentered, same (Nat.le_of_lt outside), Std.HashSet.contains_insert,
      beq_false_of_ne other, Bool.false_or]

/-- Entering a term leaves one fewer. -/
theorem unentered_insert_lt {seen : Std.HashSet TermId} {t limit : Nat} (inside : t < limit)
    (new : seen.contains t = false) : unentered (seen.insert t) limit < unentered seen limit := by
  induction limit with
  | zero => exact absurd inside (Nat.not_lt_zero t)
  | succ limit fewer =>
    rw [unentered, unentered, Std.HashSet.contains_insert]
    obtain below | rfl := Nat.lt_succ_iff_lt_or_eq.mp inside
    · rw [beq_false_of_ne (Nat.ne_of_lt below), Bool.false_or]
      exact Nat.add_lt_add_right (fewer below) _
    · rw [unentered_insert_eq (Nat.le_refl t), beq_self_eq_true, Bool.true_or, new]
      simp

end Walk

namespace Store

/-- A position outside the store has no arguments. -/
theorem args_eq_nil (s : Store) {t : TermId} (outside : s.size ≤ t) : s.args t = [] := by
  have missing : s.nodes[t]? = none := Array.getElem?_eq_none outside
  rw [args, node, Array.getD_eq_getD_getElem?, missing]
  rfl

/-- Carry out the tasks of a walk, the first one first. The arguments of a term that is entered come
before everything else, and leaving the term right after them. -/
def perform (s : Store) : List Walk.Task → Walk → Walk
  | [], w => w
  | .leave t :: tasks, w => s.perform tasks { w with out := w.out.push t }
  | .enter t :: tasks, w =>
    if w.seen.contains t then s.perform tasks w
    else
      let seen := w.seen.insert t
      let args := (s.args t).filter fun a => !seen.contains a
      s.perform (args.map .enter ++ .leave t :: tasks) { w with seen }
termination_by tasks w => (Walk.unentered w.seen s.size, Walk.steps tasks)
decreasing_by
  · exact Prod.Lex.right _ (by simp [Walk.steps])
  · exact Prod.Lex.right _ (by simp [Walk.steps])
  · next new =>
    rw [Bool.not_eq_true] at new
    by_cases inside : t < s.size
    · exact Prod.Lex.left _ _ (Walk.unentered_insert_lt inside new)
    · rw [Walk.unentered_insert_eq (Nat.le_of_not_lt inside)]
      refine Prod.Lex.right _ ?_
      simp [args_eq_nil s (Nat.le_of_not_lt inside), Walk.steps]

/-- The distinct subterms, each after its arguments. -/
def subterms (s : Store) (t : TermId) : List TermId := (s.perform [.enter t] {}).out.toList

/-- Whether a term occurs in one of the terms that are still to be looked into. The arguments of a
term are looked into before everything else, the last one first. -/
def occursAmong (s : Store) (target : TermId) : List TermId → Std.HashSet TermId → Bool
  | [], _ => false
  | t :: pending, seen =>
    if t = target then true
    else if seen.contains t then s.occursAmong target pending seen
    else s.occursAmong target ((s.args t).reverse ++ pending) (seen.insert t)
termination_by pending seen => (Walk.unentered seen s.size, pending.length)
decreasing_by
  · exact Prod.Lex.right _ (by simp)
  · next new =>
    rw [Bool.not_eq_true] at new
    by_cases inside : t < s.size
    · exact Prod.Lex.left _ _ (Walk.unentered_insert_lt inside new)
    · rw [Walk.unentered_insert_eq (Nat.le_of_not_lt inside)]
      refine Prod.Lex.right _ ?_
      simp [args_eq_nil s (Nat.le_of_not_lt inside)]

/-- Whether a term occurs in another. -/
def occurs (s : Store) (target t : TermId) : Bool := s.occursAmong target [t] ∅

/-- Visit a term after its arguments, unless it was visited before. -/
def walk (s : Store) : Nat → Walk → TermId → Walk
  | 0, w, _ => w
  | depth + 1, w, t =>
    if w.seen.contains t then w
    else
      let w := (s.args t).foldl (s.walk depth) { w with seen := w.seen.insert t }
      { w with out := w.out.push t }

/-- The distinct subterms of several terms. -/
def subtermsOfAll (s : Store) (roots : List TermId) : List TermId :=
  (roots.foldl (fun w t => s.walk (t + 1) w t) {}).out.toList

/-- The number of distinct subterms. -/
def termSize (s : Store) (t : TermId) : Nat := (s.subterms t).length

/-- The height of a term over the heights of its arguments. -/
def heightOver (s : Store) (heights : Std.HashMap TermId Nat) (t : TermId) : Nat :=
  (s.args t).foldl (fun most a => Nat.max most (heights.getD a 0)) 0 + 1

/-- The number of terms on the longest path down from a term. -/
def termDepth (s : Store) (t : TermId) : Nat :=
  let record (heights : Std.HashMap TermId Nat) (u : TermId) :=
    heights.insert u (s.heightOver heights u)
  ((s.subterms t).foldl record ∅).getD t 0

/-- The state of the search for free constants: the terms entered, each with the number of
variables bound around it, and the constants found. -/
structure FreeSearch where
  /-- Terms entered, with the number of variables bound there. -/
  seen : Std.HashSet (TermId × Nat) := ∅
  /-- Constants found, in order of occurrence. -/
  found : Array TermId := #[]

/-- Collect the constants of a term that are not among the bound names. A term is entered once
for each number of variables bound around it. -/
def collectFree (s : Store) : Nat → List String → FreeSearch → TermId → FreeSearch
  | 0, _, search, _ => search
  | depth + 1, bound, search, t =>
    if search.seen.contains (t, bound.length) then search
    else
      let search := { search with seen := search.seen.insert (t, bound.length) }
      match s.op t with
      | .var name =>
        if bound.contains name || search.found.contains t then search
        else { search with found := search.found.push t }
      | op =>
        let bound := match op.binders? with
          | some vars => (vars.map (·.name)).reverse ++ bound
          | none => bound
        (s.args t).foldl (s.collectFree depth bound) search

/-- The constants that occur free, in order of occurrence. -/
def freeConstants (s : Store) (t : TermId) : List TermId :=
  (s.collectFree (t + 1) [] {} t).found.toList

end Store

/-- A finite map of terms to terms. -/
abbrev Substitution := Std.HashMap TermId TermId

namespace Terms

/-- The entries of a substitution whose constants are not bound by these variables. -/
def unshadowed (s : Store) (vars : List Binder) (map : Substitution) : Substitution :=
  map.filter fun t _ =>
    match s.varName? t with
    | some name => !(vars.any (·.name == name))
    | none => true

/-- Substitute in a term, given the terms done so far. Under a quantifier the entries for its
variables do not apply and what was done outside is not used. -/
def substituteTo (map : Substitution) : Nat → TermId → StateT Substitution Terms TermId
  | 0, t => return t
  | depth + 1, t => do
    match map[t]? with
    | some image => return image
    | none =>
      match (← get)[t]? with
      | some image => return image
      | none =>
        let n := (← readThe Store).node t
        let args ← match n.op.binders? with
          | some vars =>
            let inner := unshadowed (← readThe Store) vars map
            let (args, _) ← (n.args.mapM (substituteTo inner depth)).run ∅
            pure args
          | none => n.args.mapM (substituteTo map depth)
        let image ← rebuild t args
        modify (·.insert t image)
        return image

/-- Replace terms by others, from the leaves up. -/
def substitute (t : TermId) (map : Substitution) : Terms TermId := do
  if map.isEmpty then return t
  else
    let (image, _) ← (substituteTo map (t + 1) t).run ∅
    return image

end Terms
end Stratagem
