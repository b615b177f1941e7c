import Mathlib.Algebra.Order.Archimedean.Real.Basic
import Mathlib.Algebra.Ring.Subring.Basic
import Stratagem.Term.Store

/-!
# The meaning of terms

The value of a term under an assignment of truth values, integers and reals to constants, and the
terms that have one: well-sorted formulas and polynomials over booleans, integers and reals.
Numbers of both sorts are read as reals, and a term of the integer sort is shown to denote an
integer. Sorts, well-sortedness and values of terms do not change when the store grows.
-/
namespace Stratagem

namespace Store

variable {s after : Store} {t : TermId}

/-- The arguments of a term stand before it. -/
theorem lt_of_mem_args {a : TermId} (inside : a ∈ s.args t) : a < t := by
  unfold args node at inside
  rw [Array.getD_eq_getD_getElem?] at inside
  cases found : s.nodes[t]? with
  | none =>
    rw [found] at inside
    cases inside
  | some n =>
    rw [found] at inside
    exact s.descending t n found a inside

/-- Arguments of one sort have the sort of the first. -/
theorem sortOf_eq_headSort {args : List TermId}
    (same : ∀ a ∈ args, ∀ b ∈ args, s.sortOf a = s.sortOf b) :
    ∀ a ∈ args, s.sortOf a = s.headSort args := by
  intro a member
  cases args with
  | nil => cases member
  | cons b rest => exact same a member b List.mem_cons_self

/-- The node at a position below the size is in the store. -/
theorem getElem?_eq_node (inside : t < s.size) : s.nodes[t]? = some (s.node t) := by
  unfold node
  rw [Array.getD_eq_getD_getElem?, Array.getElem?_eq_getElem inside, Option.getD_some]

/-- A node that is in the store is the node at its position. -/
theorem node_of_getElem? {n : Node} (found : s.nodes[t]? = some n) :
    t < s.size ∧ s.node t = n := by
  obtain ⟨inside, same⟩ := Array.getElem?_eq_some_iff.mp found
  refine ⟨inside, ?_⟩
  rw [node, Array.getD_eq_getD_getElem?, found, Option.getD_some]

/-- A position keeps its node when the store grows. -/
theorem Extends.inside_and_node (grown : s.Extends after) (inside : t < s.size) :
    t < after.size ∧ after.node t = s.node t :=
  node_of_getElem? (grown t _ (getElem?_eq_node inside))

/-- A position stays inside when the store grows. -/
theorem Extends.lt_size (grown : s.Extends after) (inside : t < s.size) : t < after.size :=
  (grown.inside_and_node inside).1

/-- A position keeps its node when the store grows. -/
theorem Extends.node_eq (grown : s.Extends after) (inside : t < s.size) :
    after.node t = s.node t :=
  (grown.inside_and_node inside).2

/-- A position keeps its head when the store grows. -/
theorem Extends.op_eq (grown : s.Extends after) (inside : t < s.size) : after.op t = s.op t := by
  rw [op, op, grown.node_eq inside]

/-- A position keeps its arguments when the store grows. -/
theorem Extends.args_eq (grown : s.Extends after) (inside : t < s.size) :
    after.args t = s.args t := by
  rw [args, args, grown.node_eq inside]

/-- A position keeps its sort when the store grows. -/
theorem Extends.sortOf_eq (grown : s.Extends after) (inside : t < s.size) :
    after.sortOf t = s.sortOf t := by
  rw [sortOf, sortOf, grown.node_eq inside]

/-- A position keeps its head and its arguments when the store grows. -/
theorem Extends.view_eq (grown : s.Extends after) (inside : t < s.size) :
    after.view t = s.view t := by
  rw [view, view, grown.node_eq inside]

/-- Two positions with one node are one position. -/
theorem eq_of_node_eq {u : TermId} (first : t < s.size) (second : u < s.size)
    (same : s.node t = s.node u) : t = u := by
  have left := (s.exact _ _).mpr (getElem?_eq_node first)
  have right := (s.exact _ _).mpr (getElem?_eq_node second)
  rw [same, right] at left
  exact (Option.some.inj left).symm

/-- The node at the first position. -/
theorem node_trueId (s : Store) : trueId < s.size ∧ s.node trueId = ⟨.bool true, [], .bool⟩ :=
  node_of_getElem? s.startsTrue

/-- The node at the second position. -/
theorem node_falseId (s : Store) : falseId < s.size ∧ s.node falseId = ⟨.bool false, [], .bool⟩ :=
  node_of_getElem? s.thenFalse

end Store

/-- Values for the constants of the three sorts. -/
structure Assignment where
  /-- Truth values of boolean constants. -/
  truth : String → Prop
  /-- Values of integer constants. -/
  integer : String → ℤ
  /-- Values of real constants. -/
  real : String → ℝ

/-- The value of a term. -/
inductive Value where
  /-- A truth value. -/
  | truth (p : Prop)
  /-- A number of either sort. -/
  | number (x : ℝ)

namespace Value

/-- Whether a value is true; numbers are not. -/
def holds : Value → Prop
  | truth p => p
  | number _ => False

/-- The number that a value is; zero for truth values. -/
def num : Value → ℝ
  | truth _ => 0
  | number x => x

@[simp] theorem holds_truth (p : Prop) : (truth p).holds = p := rfl

@[simp] theorem num_number (x : ℝ) : (number x).num = x := rfl

/-- The values of a sort. -/
def HasSort : Value → TermSort → Prop
  | truth _, .bool => True
  | number x, .int => ∃ n : ℤ, x = n
  | number _, .real => True
  | _, _ => False

/-- The integers among the reals. -/
def integers : Subring ℝ := (Int.castRingHom ℝ).range

/-- A real is an integer if it is the cast of one. -/
theorem mem_integers {x : ℝ} : x ∈ integers ↔ ∃ n : ℤ, x = n := by
  simp only [integers, RingHom.mem_range, Int.coe_castRingHom, eq_comm]

/-- A number has a sort of numbers if it is an integer wherever the sort is that of integers. -/
theorem hasSort_number {x : ℝ} {sort : TermSort} (arith : sort.isArith) :
    (number x).HasSort sort ↔ (sort = .int → x ∈ integers) := by
  rw [mem_integers]
  cases sort <;> simp_all [HasSort, TermSort.isArith]

/-- The number of a value of the integer sort is an integer. -/
theorem num_mem_integers {v : Value} (typed : v.HasSort .int) : v.num ∈ integers := by
  cases v with
  | truth => exact typed.elim
  | number => exact mem_integers.mpr typed

/-- A value of the boolean sort is a truth value. -/
theorem eq_truth {v : Value} (typed : v.HasSort .bool) : v = .truth v.holds := by
  cases v with
  | truth => rfl
  | number => exact typed.elim

/-- A value of a sort of numbers is a number. -/
theorem eq_number {v : Value} {sort : TermSort} (arith : sort.isArith)
    (typed : v.HasSort sort) : v = .number v.num := by
  cases v with
  | truth => cases sort <;> first | exact typed.elim | cases arith
  | number => rfl

end Value

/-- The value of a constant: names of different sorts are different constants. -/
def Assignment.constant (I : Assignment) (name : String) : TermSort → Value
  | .int => .number (I.integer name)
  | .real => .number (I.real name)
  | _ => .truth (I.truth name)

open Classical in
/-- The value of the application of an interpreted operator to values. -/
noncomputable def Op.interpret : Op → List Value → Value
  | bool b, _ => .truth (b = true)
  | int n, _ => .number n
  | real r, _ => .number r
  | not, [a] => .truth (¬a.holds)
  | and, args => .truth (∀ a ∈ args, a.holds)
  | or, args => .truth (∃ a ∈ args, a.holds)
  | implies, [a, b] => .truth (a.holds → b.holds)
  | xor, [a, b] => .truth (¬(a.holds ↔ b.holds))
  | ite, [c, a, b] => if c.holds then a else b
  | eq, [a, b] => .truth (a = b)
  | distinct, args => .truth (args.Pairwise (· ≠ ·))
  | neg, [a] => .number (-a.num)
  | add, args => .number (args.map Value.num).sum
  | sub, [a, b] => .number (a.num - b.num)
  | mul, args => .number (args.map Value.num).prod
  | power, [a, e] => .number (a.num ^ ⌊e.num⌋₊)
  | le, [a, b] => .truth (a.num ≤ b.num)
  | lt, [a, b] => .truth (a.num < b.num)
  | ge, [a, b] => .truth (a.num ≥ b.num)
  | gt, [a, b] => .truth (a.num > b.num)
  | toReal, [a] => .number a.num
  | _, _ => .truth False

/-- The value of an application, from its head, its sort and the values of its arguments. -/
noncomputable def Op.denote (I : Assignment) (sort : TermSort) : Op → List Value → Value
  | var name, _ => I.constant name sort
  | op, args => op.interpret args

namespace Store

/-- The value of a term under an assignment. -/
noncomputable def value (s : Store) (I : Assignment) (t : TermId) : Value :=
  (s.op t).denote I (s.sortOf t) ((s.args t).attach.map fun a => s.value I a.1)
termination_by t
decreasing_by exact lt_of_mem_args a.2

/-- The value of a term is that of its head on the values of its arguments. -/
theorem value_eq (s : Store) (I : Assignment) (t : TermId) :
    s.value I t = (s.op t).denote I (s.sortOf t) ((s.args t).map (s.value I)) := by
  rw [value, List.attach_map_val (f := s.value I)]

/-- Whether a formula is true under an assignment. -/
def holds (s : Store) (I : Assignment) (t : TermId) : Prop := (s.value I t).holds

/-- The number that a term denotes under an assignment. -/
noncomputable def num (s : Store) (I : Assignment) (t : TermId) : ℝ := (s.value I t).num

end Store

/-- What a term may be built from: the constants, by name and sort, and whether reals may be
cast to reals. -/
structure Signature where
  /-- The constants that may occur. -/
  constant : String → TermSort → Prop
  /-- Whether a cast may stand before a real. -/
  realCasts : Prop

namespace Signature

/-- Every term over one signature is one over another. -/
structure Within (small large : Signature) : Prop where
  /-- The constants are among those of the other. -/
  constants : ∀ name sort, small.constant name sort → large.constant name sort
  /-- Casts of reals are allowed if they are in the other. -/
  casts : small.realCasts → large.realCasts

end Signature

namespace Store

/-- An application is well-sorted over a signature, given the sorts of its arguments. -/
def Fits (s : Store) (Γ : Signature) (sort : TermSort) : Op → List TermId → Prop
  | .bool _, [] => sort = .bool
  | .var name, [] => Γ.constant name sort ∧ (sort = .bool ∨ sort.isArith)
  | .int _, [] => sort = .int
  | .real _, [] => sort = .real
  | .not, [a] => sort = .bool ∧ s.sortOf a = .bool
  | .and, args | .or, args => sort = .bool ∧ 2 ≤ args.length ∧ ∀ a ∈ args, s.sortOf a = .bool
  | .implies, [a, b] | .xor, [a, b] => sort = .bool ∧ s.sortOf a = .bool ∧ s.sortOf b = .bool
  | .ite, [c, a, b] => s.sortOf c = .bool ∧ s.sortOf a = sort ∧ s.sortOf b = sort
  | .eq, [a, b] => sort = .bool ∧ s.sortOf b = s.sortOf a
  | .distinct, args => sort = .bool ∧ ∀ a ∈ args, ∀ b ∈ args, s.sortOf a = s.sortOf b
  | .le, [a, b] | .lt, [a, b] | .ge, [a, b] | .gt, [a, b] =>
    sort = .bool ∧ (s.sortOf a).isArith ∧ s.sortOf b = s.sortOf a
  | .neg, [a] => sort.isArith ∧ s.sortOf a = sort
  | .sub, [a, b] => sort.isArith ∧ s.sortOf a = sort ∧ s.sortOf b = sort
  | .add, args | .mul, args => sort.isArith ∧ 2 ≤ args.length ∧ ∀ a ∈ args, s.sortOf a = sort
  | .power, [a, e] => sort.isArith ∧ s.sortOf a = sort ∧ ∃ k : ℕ, 0 < k ∧ s.op e = .int k
  | .toReal, [a] => sort = .real ∧ (s.sortOf a = .int ∨ Γ.realCasts ∧ s.sortOf a = .real)
  | _, _ => False

/-- A term is a well-sorted formula or polynomial over a signature: formulas are built from
constants, comparisons and equations of polynomials by connectives, polynomials from constants and
rational literals by sums, products, differences, powers with a positive integer literal as
exponent, case distinctions and casts of integers. -/
inductive WellSorted (s : Store) (Γ : Signature) : TermId → Prop
  | intro {t : TermId} (inside : t < s.size) (fits : s.Fits Γ (s.sortOf t) (s.op t) (s.args t))
    (args : ∀ a ∈ s.args t, WellSorted s Γ a) : WellSorted s Γ t

namespace WellSorted

variable {s after : Store} {Γ : Signature} {I : Assignment} {t : TermId}

/-- A well-sorted term is in the store. -/
theorem inside (sorted : s.WellSorted Γ t) : t < s.size := by
  cases sorted
  assumption

/-- A well-sorted term fits its arguments. -/
theorem fits (sorted : s.WellSorted Γ t) : s.Fits Γ (s.sortOf t) (s.op t) (s.args t) := by
  cases sorted
  assumption

/-- The arguments of a well-sorted term are well-sorted. -/
theorem of_mem_args (sorted : s.WellSorted Γ t) {a : TermId} (member : a ∈ s.args t) :
    s.WellSorted Γ a := by
  cases sorted with
  | intro _ _ args => exact args a member

/-- A well-sorted term has the sort of booleans or of numbers. -/
theorem sort_cases (sorted : s.WellSorted Γ t) : s.sortOf t = .bool ∨ (s.sortOf t).isArith := by
  induction sorted with
  | intro inside fits args hyps =>
    revert fits
    unfold Fits
    split <;> intro fits <;> grind [TermSort.isArith]

/-- A well-sorted application is one in every store in which its arguments have the same sorts and
heads, also over a wider signature. -/
theorem fits_congr {Δ : Signature} {sort : TermSort} {op : Op} {args : List TermId}
    (sorts : ∀ a ∈ args, after.sortOf a = s.sortOf a) (ops : ∀ a ∈ args, after.op a = s.op a)
    (within : Γ.Within Δ) (fits : s.Fits Γ sort op args) : after.Fits Δ sort op args := by
  obtain ⟨constants, casts⟩ := within
  revert fits
  unfold Fits
  split <;> intro fits <;> grind

/-- A well-sorted application stays so when the store grows and the signature widens. -/
theorem fits_mono {Δ : Signature} {sort : TermSort} {op : Op} {args : List TermId}
    (grown : s.Extends after) (within : Γ.Within Δ) (inside : ∀ a ∈ args, a < s.size)
    (fits : s.Fits Γ sort op args) : after.Fits Δ sort op args :=
  fits_congr (fun a member => grown.sortOf_eq (inside a member))
    (fun a member => grown.op_eq (inside a member)) within fits

/-- A well-sorted term stays so when the store grows and the signature widens. -/
theorem mono_within {Δ : Signature} (grown : s.Extends after) (within : Γ.Within Δ)
    (sorted : s.WellSorted Γ t) : after.WellSorted Δ t := by
  induction sorted with
  | intro inside fits args hyps =>
    have arguments : ∀ a ∈ s.args _, a < s.size := fun a member => (args a member).inside
    refine .intro (grown.lt_size inside) ?_ ?_
    · rw [grown.sortOf_eq inside, grown.op_eq inside, grown.args_eq inside]
      exact fits_mono grown within arguments fits
    · rw [grown.args_eq inside]
      exact hyps

/-- A well-sorted term stays so when the store grows. -/
theorem mono (sorted : s.WellSorted Γ t) (grown : s.Extends after) : after.WellSorted Γ t :=
  sorted.mono_within grown ⟨fun _ _ known => known, id⟩

/-- A term in a store that has grown is well-sorted only if it was so before. -/
theorem of_extends (grown : s.Extends after) (inside : t < s.size)
    (sorted : after.WellSorted Γ t) : s.WellSorted Γ t := by
  induction sorted with
  | @intro t _ fits args before =>
    rw [grown.args_eq inside] at args before
    have smaller : ∀ a ∈ s.args t, a < s.size := fun a member =>
      (lt_of_mem_args member).trans inside
    refine .intro inside ?_ fun a member => before a member (smaller a member)
    rw [grown.op_eq inside, grown.args_eq inside, grown.sortOf_eq inside] at fits
    exact fits_congr (fun a member => (grown.sortOf_eq (smaller a member)).symm)
      (fun a member => (grown.op_eq (smaller a member)).symm) ⟨fun _ _ known => known, id⟩ fits

/-- The value of a well-sorted application is one of its sort, if that of each argument is. -/
theorem hasSort_denote {sort : TermSort} {op : Op} {args : List TermId}
    (fits : s.Fits Γ sort op args)
    (typed : ∀ a ∈ args, (s.value I a).HasSort (s.sortOf a)) :
    (op.denote I sort (args.map (s.value I))).HasSort sort := by
  have integral : ∀ a ∈ args, s.sortOf a = .int → s.num I a ∈ Value.integers :=
    fun a member same => Value.num_mem_integers (same ▸ typed a member)
  revert fits
  unfold Fits
  split <;> intro fits
  case h_2 name =>
    obtain ⟨_, rfl | arith⟩ := fits
    · trivial
    · cases sort <;> simp_all [TermSort.isArith, Op.denote, Assignment.constant, Value.HasSort]
  case h_3 n =>
    subst fits
    exact ⟨n, rfl⟩
  case h_10 c a b =>
    obtain ⟨_, rfl, same⟩ := fits
    simp only [List.map_cons, List.map_nil, Op.denote, Op.interpret]
    split_ifs
    · exact typed a (by simp)
    · exact same ▸ typed b (by simp)
  case h_17 a =>
    obtain ⟨arith, same⟩ := fits
    refine (Value.hasSort_number arith).mpr fun int => neg_mem ?_
    exact integral a (by simp) (same.trans int)
  case h_18 a b =>
    obtain ⟨arith, first, second⟩ := fits
    refine (Value.hasSort_number arith).mpr fun int => sub_mem ?_ ?_
    · exact integral a (by simp) (first.trans int)
    · exact integral b (by simp) (second.trans int)
  case h_19 =>
    obtain ⟨arith, _, same⟩ := fits
    refine (Value.hasSort_number arith).mpr fun int => list_sum_mem fun x member => ?_
    obtain ⟨v, ⟨a, inside, rfl⟩, rfl⟩ := by simpa only [List.mem_map] using member
    exact integral a inside ((same a inside).trans int)
  case h_20 =>
    obtain ⟨arith, _, same⟩ := fits
    refine (Value.hasSort_number arith).mpr fun int => list_prod_mem fun x member => ?_
    obtain ⟨v, ⟨a, inside, rfl⟩, rfl⟩ := by simpa only [List.mem_map] using member
    exact integral a inside ((same a inside).trans int)
  case h_21 a e =>
    obtain ⟨arith, same, _⟩ := fits
    refine (Value.hasSort_number arith).mpr fun int => pow_mem ?_ _
    exact integral a (by simp) (same.trans int)
  -- The other heads are of the boolean or the real sort, of which every value is one.
  all_goals first | exact fits.elim | (obtain ⟨rfl, _⟩ := fits; trivial)

/-- The value of a well-sorted term is one of its sort. -/
theorem hasSort (sorted : s.WellSorted Γ t) : (s.value I t).HasSort (s.sortOf t) := by
  induction sorted with
  | intro inside fits args typed =>
    rw [value_eq]
    exact hasSort_denote fits typed

end WellSorted

/-- A term in the store keeps its value when the store grows. -/
theorem Extends.value_eq {s after : Store} (grown : s.Extends after) (I : Assignment)
    {t : TermId} (inside : t < s.size) : after.value I t = s.value I t := by
  induction t using Nat.strongRecOn with
  | ind t smaller =>
    rw [Store.value_eq, Store.value_eq, grown.op_eq inside, grown.sortOf_eq inside,
      grown.args_eq inside]
    congr 1
    refine List.map_congr_left fun a member => ?_
    have before := lt_of_mem_args member
    exact smaller a before (before.trans inside)

end Store

/-- Two assignments give the same values to the boolean and numeric constants of a signature. -/
def Assignment.AgreeOn (I J : Assignment) (Γ : Signature) : Prop :=
  ∀ name sort, Γ.constant name sort → sort = .bool ∨ sort.isArith →
    I.constant name sort = J.constant name sort

/-- The value of an application depends on the assignment only if its head is a constant. -/
theorem Op.denote_congr {I J : Assignment} {sort : TermSort} {op : Op}
    (known : ∀ name, op = .var name → I.constant name sort = J.constant name sort)
    (args : List Value) : op.denote I sort args = op.denote J sort args := by
  cases op with
  | var name => exact known name rfl
  | _ => rfl

/-- The value of a term depends on the constants of its signature only. -/
theorem Store.WellSorted.value_congr {s : Store} {Γ : Signature} {I J : Assignment} {t : TermId}
    (sorted : s.WellSorted Γ t) (agree : I.AgreeOn J Γ) : s.value I t = s.value J t := by
  induction sorted with
  | @intro t inside fits args same =>
    rw [value_eq, value_eq, List.map_congr_left same]
    refine Op.denote_congr (fun name head => ?_) _
    rw [head] at fits
    cases arguments : s.args t with
    | nil =>
      rw [arguments] at fits
      exact agree name _ fits.1 fits.2
    | cons =>
      rw [arguments] at fits
      exact fits.elim

end Stratagem
