import Mathlib.Data.Set.Insert
import Mathlib.Data.List.Sort
import Stratagem.Dependency

/-!
# Dependency sets as sets

A dependency set is determined by its members: two sets with the same members are the same list. So
unions are associative, commutative and idempotent, and it makes no difference whether the lists
were merged or were one list in memory all along. Looking for a term by halving finds the members,
as every set increases, and the members of a set that was put together are the terms that were put
into it.
-/
namespace Stratagem.DependencySet

variable {a b c : DependencySet} {t : TermId} {shared : Bool}

/-- The member in the middle of an increasing list stands between its halves. -/
theorem halves {members above : List TermId} {middle : TermId}
    (ordered : members.Pairwise (· < ·))
    (half : members.drop (members.length / 2) = middle :: above) :
    members = members.take (members.length / 2) ++ middle :: above ∧
      (members.take (members.length / 2)).Pairwise (· < ·) ∧ above.Pairwise (· < ·) ∧
      (∀ t ∈ members.take (members.length / 2), t < middle) ∧ ∀ t ∈ above, middle < t := by
  have whole : members = members.take (members.length / 2) ++ middle :: above := by
    rw [← half, List.take_append_drop]
  have sides := ordered
  rw [whole] at sides
  obtain ⟨lower, upper, apart⟩ := List.pairwise_append.mp sides
  obtain ⟨beyond, upper⟩ := List.pairwise_cons.mp upper
  exact ⟨whole, lower, upper, fun t member => apart t member middle List.mem_cons_self, beyond⟩

/-- Looking into the halves of an increasing list finds its members. -/
theorem search_iff {members : List TermId} (ordered : members.Pairwise (· < ·)) :
    search t members = true ↔ t ∈ members := by
  fun_induction search t members with
  | case1 members half =>
    have size := congrArg List.length half
    rw [List.length_drop, List.length_nil] at size
    obtain rfl : members = [] := List.eq_nil_of_length_eq_zero (by omega)
    simp
  | case2 members above half =>
    have found : t ∈ members := List.mem_of_mem_drop (half ▸ List.mem_cons_self)
    simp [found]
  | case3 members middle above half differ less below =>
    obtain ⟨whole, lower, _, _, beyond⟩ := halves ordered half
    have absent : t ∉ above := fun member => Nat.lt_asymm less (beyond t member)
    rw [below lower]
    conv_rhs => rw [whole]
    simp [differ, absent]
  | case4 members middle above half differ notLess later =>
    obtain ⟨whole, _, upper, under, _⟩ := halves ordered half
    have absent : t ∉ members.take (members.length / 2) := fun member => notLess (under t member)
    rw [later upper]
    conv_rhs => rw [whole]
    simp [differ, absent]

/-- The members of a set are found in it. -/
theorem contains_iff : a.contains t = true ↔ t ∈ a.members := search_iff a.increasing

/-- A set is determined by its members. -/
theorem eq_of_mem_iff (same : ∀ t, t ∈ a.members ↔ t ∈ b.members) : a = b := by
  obtain ⟨left, ordered⟩ := a
  obtain ⟨right, other⟩ := b
  obtain rfl : left = right := ordered.eq_of_mem_iff other same
  rfl

/-- The members of a union are those of both sets. -/
theorem mem_union : t ∈ (a.union b).members ↔ t ∈ a.members ∨ t ∈ b.members := by
  rw [members_union, mem_merge]

/-- The members of a set of given terms are these terms. -/
theorem mem_ofTerms {terms : List TermId} : t ∈ (ofTerms terms).members ↔ t ∈ terms := by
  rw [ofTerms, mem_dropRepeats, sorted, List.mem_mergeSort]

/-- A union of a set with itself is that set. -/
theorem union_self (a : DependencySet) : a.union a = a :=
  eq_of_mem_iff fun _ => by rw [mem_union, or_self]

/-- The order of the sets does not matter for their union. -/
theorem union_comm (a b : DependencySet) : a.union b = b.union a :=
  eq_of_mem_iff fun _ => by rw [mem_union, mem_union, or_comm]

/-- It does not matter which union is taken first. -/
theorem union_assoc (a b c : DependencySet) : (a.union b).union c = a.union (b.union c) :=
  eq_of_mem_iff fun _ => by rw [mem_union, mem_union, mem_union, mem_union, or_assoc]

/-- A union of lists in one place is that list, and merging them would not change it. -/
theorem union_shared (same : shared = true → a = b) : a.union b shared = a.union b := by
  cases shared with
  | false => rfl
  | true =>
    obtain rfl := same rfl
    rw [union_self, union, Bool.or_true, if_pos rfl]

/-- A union of optional sets in one place is that of sets that share nothing. -/
theorem join_shared {a b : Option DependencySet} (same : shared = true → a = b) :
    join a b shared = join a b := by
  cases a with
  | none => rfl
  | some a =>
    cases b with
    | none => rfl
    | some b => exact congrArg some (union_shared fun one => Option.some.inj (same one))

/-- An absent set adds nothing. -/
theorem join_none (a : Option DependencySet) : join a none = a := by
  cases a <;> rfl

/-- Nothing is added to an absent set but the other. -/
theorem none_join (a : Option DependencySet) : join none a = a := rfl

/-- A union of an optional set with itself is that set. -/
theorem join_self (a : Option DependencySet) : join a a = a := by
  cases a with
  | none => rfl
  | some a => exact congrArg some (union_self a)

/-- The order of optional sets does not matter for their union. -/
theorem join_comm (a b : Option DependencySet) : join a b = join b a := by
  cases a with
  | none => rw [none_join, join_none]
  | some a =>
    cases b with
    | none => rfl
    | some b => exact congrArg some (union_comm a b)

/-- It does not matter which union of optional sets is taken first. -/
theorem join_assoc (a b c : Option DependencySet) :
    join (join a b) c = join a (join b c) := by
  cases a with
  | none => rfl
  | some a =>
    cases b with
    | none => rfl
    | some b =>
      cases c with
      | none => rfl
      | some c => exact congrArg some (union_assoc a b c)

/-- The sets that can be put together, each with the terms that were put into it. Lists in one place
are one list. -/
inductive Combined : Option DependencySet → Set TermId → Prop
  /-- No set. -/
  | absent : Combined none ∅
  /-- The empty set. -/
  | empty : Combined (some empty) ∅
  /-- The set of one term. -/
  | leaf (t : TermId) : Combined (some (leaf t)) {t}
  /-- The set of given terms, in any order and with repetitions. -/
  | ofTerms (terms : List TermId) : Combined (some (ofTerms terms)) {t | t ∈ terms}
  /-- A union of sets. -/
  | union {a b : DependencySet} {A B : Set TermId} (shared : Bool) (same : shared = true → a = b)
      (left : Combined (some a) A) (right : Combined (some b) B) :
      Combined (some (a.union b shared)) (A ∪ B)
  /-- A union of sets that may be absent. -/
  | join {a b : Option DependencySet} {A B : Set TermId} (shared : Bool)
      (same : shared = true → a = b) (left : Combined a A) (right : Combined b B) :
      Combined (join a b shared) (A ∪ B)

/-- The members of an optional set; an absent set has none. -/
def membersOf (a : Option DependencySet) : List TermId := a.elim [] members

/-- The members of a union of optional sets are those of both. -/
theorem mem_join {a b : Option DependencySet} :
    t ∈ membersOf (join a b) ↔ t ∈ membersOf a ∨ t ∈ membersOf b := by
  cases a with
  | none => simp [none_join, membersOf]
  | some a =>
    cases b with
    | none => simp [join_none, membersOf]
    | some b => exact mem_union

/-- The members of a set are the terms that were put into it. -/
theorem Combined.mem_iff {a : Option DependencySet} {A : Set TermId} (combined : Combined a A)
    (t : TermId) : t ∈ membersOf a ↔ t ∈ A := by
  induction combined with
  | absent => exact List.mem_nil_iff t
  | empty => exact List.mem_nil_iff t
  | leaf other => exact List.mem_singleton
  | ofTerms terms => exact mem_ofTerms
  | union shared same _ _ left right =>
    rw [union_shared same]
    exact mem_union.trans (or_congr left right)
  | join shared same _ _ left right =>
    rw [join_shared same]
    exact mem_join.trans (or_congr left right)

/-- A set that was put together increases, holds exactly the terms that were put into it, and is the
only one that does. Unions of sets, and those of sets that may be absent, are the same whether lists
are shared or not. They are associative, commutative and idempotent; an absent set changes nothing. -/
theorem combined_canonical {a : DependencySet} {A : Set TermId} (combined : Combined (some a) A) :
    a.members.Pairwise (· < ·) ∧ (∀ t, a.contains t = true ↔ t ∈ A) ∧
    (∀ b, Combined (some b) A → a = b) ∧
    (∀ (x y : DependencySet) (shared : Bool), (shared = true → x = y) →
      x.union y shared = x.union y) ∧
    (∀ x y z : DependencySet, (x.union y).union z = x.union (y.union z)) ∧
    (∀ x y : DependencySet, x.union y = y.union x) ∧ (∀ x : DependencySet, x.union x = x) ∧
    (∀ (x y : Option DependencySet) (shared : Bool), (shared = true → x = y) →
      join x y shared = join x y) ∧
    (∀ x y z, join (join x y) z = join x (join y z)) ∧ (∀ x y, join x y = join y x) ∧
    (∀ x, join x x = x) ∧ (∀ x, join none x = x) ∧ ∀ x, join x none = x := by
  refine ⟨a.increasing, fun t => contains_iff.trans (combined.mem_iff t), fun b other => ?_,
    fun _ _ _ => union_shared, union_assoc, union_comm, union_self, fun _ _ _ => join_shared,
    join_assoc, join_comm, join_self, none_join, join_none⟩
  exact eq_of_mem_iff fun t => (combined.mem_iff t).trans (other.mem_iff t).symm

/-- Two terms in any order, and a third one with a union. -/
theorem combined_canonical_five_one_three :
    Combined (some ((ofTerms [5, 1]).union (leaf 3))) ({t | t ∈ [5, 1]} ∪ {3}) ∧
      ((ofTerms [5, 1]).union (leaf 3)).contains 5 = true ∧
      ((ofTerms [5, 1]).union (leaf 3)).contains 2 = false := by
  have combined : Combined (some ((ofTerms [5, 1]).union (leaf 3))) ({t | t ∈ [5, 1]} ∪ {3}) :=
    .union false nofun (.ofTerms [5, 1]) (.leaf 3)
  have found := (combined_canonical combined).2.1
  refine ⟨combined, (found 5).mpr (by simp), ?_⟩
  rw [← Bool.not_eq_true, found 2]
  simp

end Stratagem.DependencySet
