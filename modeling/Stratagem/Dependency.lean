import Stratagem.Term.Store

/-!
# Dependency sets

The tracked assumptions that a formula depends on, as a strictly increasing list of terms. Such
a list is determined by its members, so equality of sets is equality of lists; a union merges two
lists, and a member is found by halving. A set carries the proof that its list increases.
-/
namespace Stratagem

/-- A set of tracked assumptions, in increasing order. -/
structure DependencySet where
  /-- Members in increasing order. -/
  members : List TermId
  /-- Every member stands before all greater ones, and only once. -/
  increasing : members.Pairwise (· < ·)
  deriving DecidableEq, Repr

namespace DependencySet

/-- Merge two strictly increasing lists into one, keeping one copy of common members. -/
def merge : List TermId → List TermId → List TermId
  | [], right => right
  | left, [] => left
  | a :: left, b :: right =>
    if a < b then a :: merge left (b :: right)
    else if b < a then b :: merge (a :: left) right
    else a :: merge left right
termination_by left right => left.length + right.length

/-- A merged list has the members of both. -/
theorem mem_merge {t : TermId} (left right : List TermId) :
    t ∈ merge left right ↔ t ∈ left ∨ t ∈ right := by
  fun_induction merge left right <;> grind

/-- Merging increasing lists gives an increasing list. -/
theorem pairwise_merge {left right : List TermId} (ordered : left.Pairwise (· < ·))
    (other : right.Pairwise (· < ·)) : (merge left right).Pairwise (· < ·) := by
  fun_induction merge left right with
  | case1 => exact other
  | case2 => exact ordered
  | case3 a left b right less tail =>
    obtain ⟨above, rest⟩ := List.pairwise_cons.mp ordered
    refine List.pairwise_cons.mpr ⟨fun t member => ?_, tail rest other⟩
    obtain old | new := (mem_merge ..).mp member
    · exact above t old
    · obtain rfl | later := List.mem_cons.mp new
      · exact less
      · exact Nat.lt_trans less ((List.pairwise_cons.mp other).1 t later)
  | case4 a left b right _ less tail =>
    obtain ⟨above, rest⟩ := List.pairwise_cons.mp other
    refine List.pairwise_cons.mpr ⟨fun t member => ?_, tail ordered rest⟩
    obtain new | old := (mem_merge ..).mp member
    · obtain rfl | later := List.mem_cons.mp new
      · exact less
      · exact Nat.lt_trans less ((List.pairwise_cons.mp ordered).1 t later)
    · exact above t old
  | case5 a left b right notLess notMore tail =>
    obtain rfl : a = b := Nat.le_antisymm (Nat.le_of_not_lt notMore) (Nat.le_of_not_lt notLess)
    obtain ⟨above, rest⟩ := List.pairwise_cons.mp ordered
    obtain ⟨beyond, others⟩ := List.pairwise_cons.mp other
    refine List.pairwise_cons.mpr ⟨fun t member => ?_, tail rest others⟩
    exact ((mem_merge ..).mp member).elim (above t) (beyond t)

/-- Drop every member that equals the one before it. -/
def dropRepeats : List TermId → List TermId
  | a :: b :: rest => if a = b then dropRepeats (b :: rest) else a :: dropRepeats (b :: rest)
  | short => short

/-- Dropping repetitions keeps the members. -/
theorem mem_dropRepeats {t : TermId} (terms : List TermId) : t ∈ dropRepeats terms ↔ t ∈ terms := by
  fun_induction dropRepeats terms <;> grind

/-- A list in order increases strictly once repetitions are dropped. -/
theorem pairwise_dropRepeats {terms : List TermId} (ordered : terms.Pairwise (· ≤ ·)) :
    (dropRepeats terms).Pairwise (· < ·) := by
  fun_induction dropRepeats terms with
  | case1 b rest tail => exact tail (List.pairwise_cons.mp ordered).2
  | case2 a b rest differ tail =>
    obtain ⟨above, others⟩ := List.pairwise_cons.mp ordered
    refine List.pairwise_cons.mpr ⟨fun t member => ?_, tail others⟩
    have first : a < b := Nat.lt_of_le_of_ne (above b List.mem_cons_self) differ
    obtain rfl | later := List.mem_cons.mp ((mem_dropRepeats _).mp member)
    · exact first
    · exact Nat.lt_of_lt_of_le first ((List.pairwise_cons.mp others).1 t later)
  | case3 short single =>
    match short with
    | [] => exact .nil
    | [a] => exact List.pairwise_singleton _ a
    | a :: b :: rest => exact absurd rfl (single a b rest)

/-- The empty set. -/
def empty : DependencySet := ⟨[], .nil⟩

/-- The set of one assumption. -/
def leaf (t : TermId) : DependencySet := ⟨[t], List.pairwise_singleton _ t⟩

/-- The terms in order. -/
def sorted (terms : List TermId) : List TermId := terms.mergeSort fun a b => decide (a ≤ b)

/-- Sorted terms are in order. -/
theorem pairwise_sorted (terms : List TermId) : (sorted terms).Pairwise (· ≤ ·) :=
  have ordered : (sorted terms).Pairwise fun a b => decide (a ≤ b) = true :=
    List.pairwise_mergeSort (by simpa using fun a b c => Nat.le_trans) (by simpa using Nat.le_total)
      terms
  ordered.imp of_decide_eq_true

/-- The set of the given assumptions: they are sorted, and repetitions are dropped. -/
def ofTerms (terms : List TermId) : DependencySet :=
  ⟨dropRepeats (sorted terms), pairwise_dropRepeats (pairwise_sorted terms)⟩

/-- Whether there are no members. -/
def isEmpty (a : DependencySet) : Bool := a.members.isEmpty

/-- Union. The sets may share one list in memory; then there is nothing to merge, and neither is
there if one of them is empty. -/
def union (a b : DependencySet) (shared : Bool := false) : DependencySet :=
  if b.isEmpty || shared then a
  else if a.isEmpty then b
  else ⟨merge a.members b.members, pairwise_merge a.increasing b.increasing⟩

/-- The members of a union of sets that share nothing are the merged members. -/
theorem members_union (a b : DependencySet) : (a.union b).members = merge a.members b.members := by
  unfold union isEmpty
  split
  · next empty =>
    rw [Bool.or_false, List.isEmpty_iff] at empty
    rw [empty]
    cases a.members <;> rw [merge]
    exact nofun
  · split
    · next empty => rw [List.isEmpty_iff.mp empty, merge]
    · rfl

/-- Union of optional sets, in which an absent set counts as empty; absent if both are. -/
def join (a b : Option DependencySet) (shared : Bool := false) : Option DependencySet :=
  match a, b with
  | some a, some b => some (a.union b shared)
  | some a, none => some a
  | none, b => b

/-- Look for a term in an increasing list: in the half in which it would stand. -/
def search (t : TermId) (members : List TermId) : Bool :=
  match half : members.drop (members.length / 2) with
  | [] => false
  | middle :: above =>
    if t = middle then true
    else if t < middle then search t (members.take (members.length / 2))
    else search t above
termination_by members.length
decreasing_by
  all_goals
    have size := congrArg List.length half
    simp only [List.length_drop, List.length_cons, List.length_take] at size ⊢
    omega

/-- Whether a term is a member. -/
def contains (a : DependencySet) (t : TermId) : Bool := search t a.members

/-- The number of members. -/
def size (a : DependencySet) : Nat := a.members.length

end DependencySet
end Stratagem
