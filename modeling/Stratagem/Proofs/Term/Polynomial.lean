import Mathlib.Algebra.Algebra.Rat
import Mathlib.Algebra.MvPolynomial.Funext
import Mathlib.Algebra.Order.BigOperators.Ring.List
import Stratagem.Proofs.Term.Building

/-!
# The polynomial of a term

Terms built from constants and rational literals of one sort of numbers by sums, products,
differences and negation denote polynomials with rational coefficients in the names of the
constants. Two such terms denote the same polynomial exactly if they have the same values under
every assignment, also if the constants are integers.
-/
namespace Stratagem

namespace Store

variable {α : Type} {s after : Store} {t : TermId}

/-- What an operation on heads makes of a term from its leaves up. -/
def fold (s : Store) (f : Op → List α → α) (t : TermId) : α :=
  f (s.op t) ((s.args t).attach.map fun a => s.fold f a.1)
termination_by t
decreasing_by exact lt_of_mem_args a.2

/-- The operation is applied to the head and to what it makes of the arguments. -/
theorem fold_eq (s : Store) (f : Op → List α → α) (t : TermId) :
    s.fold f t = f (s.op t) ((s.args t).map (s.fold f)) := by
  rw [fold, List.attach_map_val (f := s.fold f)]

/-- Terms further on do not matter. -/
theorem Extends.fold_eq (grown : s.Extends after) (f : Op → List α → α) (inside : t < s.size) :
    after.fold f t = s.fold f t := by
  induction t using Nat.strongRecOn with
  | ind t smaller =>
    rw [Store.fold_eq, Store.fold_eq, grown.op_eq inside, grown.args_eq inside]
    congr 1
    refine List.map_congr_left fun a member => ?_
    have before := lt_of_mem_args member
    exact smaller a before (before.trans inside)

end Store

/-- The polynomial of an application, from the polynomials of its arguments. -/
noncomputable def Op.polynomial : Op → List (MvPolynomial String ℚ) → MvPolynomial String ℚ
  | var name, _ => .X name
  | int n, _ => .C n
  | real r, _ => .C r
  | neg, [a] => -a
  | sub, [a, b] => a - b
  | add, args => args.sum
  | mul, args => args.prod
  | _, _ => 0

/-- A bound for the number of monomials of an application, from bounds for its arguments. -/
def Op.width : Op → List ℕ → ℕ
  | neg, [a] => a
  | sub, [a, b] => a + b
  | add, args => args.sum
  | mul, args => args.prod
  | _, _ => 1

/-- The applications that polynomials of a sort of numbers are built from. -/
def Op.BuildsPolynomial (isInt : Bool) : Op → List TermId → Prop
  | var _, [] => True
  | int _, [] => isInt = true
  | real _, [] => isInt = false
  | neg, [_] => True
  | sub, [_, _] => True
  | add, args | mul, args => 2 ≤ args.length
  | _, _ => False

namespace Store

/-- The polynomial that a term denotes. -/
noncomputable def polynomial (s : Store) : TermId → MvPolynomial String ℚ := s.fold Op.polynomial

/-- A bound for the number of monomials of a term that is multiplied out. -/
def width (s : Store) : TermId → ℕ := s.fold Op.width

/-- A term is built from constants and rational literals of a sort of numbers by sums and products
of at least two terms, differences and negation. -/
inductive IsPolynomial (s : Store) (isInt : Bool) : TermId → Prop
  | intro {t : TermId} (inside : t < s.size) (sort : s.sortOf t = .number isInt)
    (form : (s.op t).BuildsPolynomial isInt (s.args t))
    (args : ∀ a ∈ s.args t, IsPolynomial s isInt a) : IsPolynomial s isInt t

/-- The parts of an application that polynomials are built from. -/
theorem builds_cases {isInt : Bool} {op : Op} {args : List TermId}
    (form : op.BuildsPolynomial isInt args) :
    (args = [] ∧ ((∃ name, op = .var name) ∨ (∃ n, op = .int n ∧ isInt = true) ∨
      ∃ r, op = .real r ∧ isInt = false)) ∨
    (op = .neg ∧ ∃ a, args = [a]) ∨ (op = .sub ∧ ∃ a b, args = [a, b]) ∨
    (op = .add ∧ 2 ≤ args.length) ∨ (op = .mul ∧ 2 ≤ args.length) := by
  unfold Op.BuildsPolynomial at form
  split at form <;> simp_all

namespace IsPolynomial

variable {s after : Store} {isInt : Bool} {t a : TermId}

/-- A polynomial is in the store. -/
theorem inside (known : s.IsPolynomial isInt t) : t < s.size := by
  cases known
  assumption

/-- A polynomial has its sort. -/
theorem sort (known : s.IsPolynomial isInt t) : s.sortOf t = .number isInt := by
  cases known
  assumption

/-- The application that a polynomial is. -/
theorem form (known : s.IsPolynomial isInt t) : (s.op t).BuildsPolynomial isInt (s.args t) := by
  cases known
  assumption

/-- The arguments of a polynomial are polynomials. -/
theorem of_mem_args (known : s.IsPolynomial isInt t) (member : a ∈ s.args t) :
    s.IsPolynomial isInt a := by
  cases known with
  | intro _ _ _ args => exact args a member

/-- A polynomial stays one when the store grows. -/
theorem mono (known : s.IsPolynomial isInt t) (grown : s.Extends after) :
    after.IsPolynomial isInt t := by
  induction known with
  | intro inside sort form _ args =>
    refine .intro (grown.lt_size inside) ?_ ?_ ?_
    · rw [grown.sortOf_eq inside, sort]
    · rw [grown.op_eq inside, grown.args_eq inside]
      exact form
    · rw [grown.args_eq inside]
      exact args

/-- A term in a store that has grown is a polynomial only if it was one before. -/
theorem of_extends (grown : s.Extends after) (inside : t < s.size)
    (known : after.IsPolynomial isInt t) : s.IsPolynomial isInt t := by
  induction known with
  | intro _ sort form _ args =>
    rw [grown.args_eq inside] at form args
    rw [grown.op_eq inside] at form
    rw [grown.sortOf_eq inside] at sort
    exact .intro inside sort form fun a member =>
      args a member ((lt_of_mem_args member).trans inside)

/-- A polynomial is well-sorted over every signature with its constants. -/
theorem wellSorted {Γ : Signature} (all : ∀ name sort, Γ.constant name sort)
    (known : s.IsPolynomial isInt t) : s.WellSorted Γ t := by
  induction known with
  | @intro t inside sort form args sorted =>
    refine .intro inside ?_ sorted
    have sorts : ∀ a ∈ s.args t, s.sortOf a = .number isInt := fun a member => (args a member).sort
    have arith := TermSort.isArith_number isInt
    rw [sort]
    rcases builds_cases form with ⟨none, ⟨_, op⟩ | ⟨_, op, rfl⟩ | ⟨_, op, rfl⟩⟩ |
      ⟨op, a, one⟩ | ⟨op, a, b, two⟩ | ⟨op, many⟩ | ⟨op, many⟩
    · rw [op, none]
      exact ⟨all _ _, .inr arith⟩
    · rw [op, none]
      rfl
    · rw [op, none]
      rfl
    · rw [op, one]
      exact ⟨arith, sorts a (by simp [one])⟩
    · rw [op, two]
      exact ⟨arith, sorts a (by simp [two]), sorts b (by simp [two])⟩
    · rw [op]
      exact ⟨arith, many, sorts⟩
    · rw [op]
      exact ⟨arith, many, sorts⟩

/-- A polynomial has at least one monomial, and no fewer than its arguments. -/
theorem width_pos (known : s.IsPolynomial isInt t) : 0 < s.width t := by
  induction known with
  | @intro t inside sort form args positive =>
    rw [width, fold_eq]
    rcases builds_cases form with ⟨none, ⟨_, op⟩ | ⟨_, op, _⟩ | ⟨_, op, _⟩⟩ |
      ⟨op, a, one⟩ | ⟨op, a, b, two⟩ | ⟨op, many⟩ | ⟨op, many⟩
    · rw [op, none]
      exact Nat.one_pos
    · rw [op, none]
      exact Nat.one_pos
    · rw [op, none]
      exact Nat.one_pos
    · rw [op, one]
      exact positive a (by simp [one])
    · rw [op, two]
      exact Nat.add_pos_left (positive a (by simp [two])) _
    · rw [op]
      obtain ⟨a, member⟩ := List.exists_mem_of_length_pos (Nat.lt_of_lt_of_le Nat.two_pos many)
      exact Nat.lt_of_lt_of_le (positive a member)
        (List.le_sum_of_mem (List.mem_map_of_mem member))
    · rw [op]
      apply List.prod_pos
      intro k member
      obtain ⟨a, inside, rfl⟩ := List.mem_map.mp member
      exact positive a inside

/-- An argument has no more monomials than the whole. -/
theorem width_le (known : s.IsPolynomial isInt t) (member : a ∈ s.args t) :
    s.width a ≤ s.width t := by
  have positive : ∀ k ∈ (s.args t).map s.width, 0 < k := by
    intro k inside
    obtain ⟨b, other, rfl⟩ := List.mem_map.mp inside
    exact (known.of_mem_args other).width_pos
  have inside := List.mem_map_of_mem (f := s.width) member
  have whole : s.width t = (s.op t).width ((s.args t).map s.width) := s.fold_eq Op.width t
  rw [whole]
  rcases builds_cases known.form with ⟨none, _⟩ | ⟨op, b, one⟩ | ⟨op, b, c, two⟩ | ⟨op, _⟩ | ⟨op, _⟩
  · rw [none] at member
    cases member
  · rw [one] at member inside ⊢
    rw [op, List.mem_singleton.mp member]
    exact Nat.le_refl _
  · rw [two] at inside ⊢
    rw [op]
    simp only [List.map_cons, List.map_nil, List.mem_cons, List.not_mem_nil, or_false] at inside
    show _ ≤ s.width b + s.width c
    omega
  · rw [op]
    exact List.le_sum_of_mem inside
  · rw [op]
    exact Nat.le_of_dvd (List.prod_pos positive) (List.dvd_prod inside)

end IsPolynomial

end Store

/-- The numbers that an assignment gives to the constants of a sort of numbers. -/
def Assignment.number (I : Assignment) (isInt : Bool) (name : String) : ℝ :=
  (I.constant name (.number isInt)).num

/-- The value of a polynomial is that of the polynomial it denotes. -/
theorem Store.IsPolynomial.num_eq {s : Store} {isInt : Bool} {t : TermId}
    (known : s.IsPolynomial isInt t) (I : Assignment) :
    s.num I t = MvPolynomial.aeval (I.number isInt) (s.polynomial t) := by
  induction known with
  | @intro t inside sort form args same =>
    have values : (s.args t).map (s.num I) =
        ((s.args t).map s.polynomial).map (MvPolynomial.aeval (I.number isInt)) := by
      rw [List.map_map]
      exact List.map_congr_left same
    have whole : s.polynomial t = (s.op t).polynomial ((s.args t).map s.polynomial) :=
      s.fold_eq Op.polynomial t
    rw [whole, num, value_eq]
    rcases builds_cases form with ⟨none, ⟨_, op⟩ | ⟨_, op, _⟩ | ⟨_, op, _⟩⟩ |
      ⟨op, a, one⟩ | ⟨op, a, b, two⟩ | ⟨op, many⟩ | ⟨op, many⟩
    · rw [op, sort]
      exact (MvPolynomial.aeval_X (I.number isInt) _).symm
    · rw [op]
      simp [Op.denote, Op.interpret, Op.polynomial]
    · rw [op]
      simp [Op.denote, Op.interpret, Op.polynomial]
    · rw [one] at values ⊢
      rw [op]
      have value := List.head_eq_of_cons_eq values
      exact (congrArg Neg.neg value).trans (map_neg _ _).symm
    · rw [two] at values ⊢
      rw [op]
      have first := List.head_eq_of_cons_eq values
      have second := List.head_eq_of_cons_eq (List.tail_eq_of_cons_eq values)
      exact (congrArg₂ HSub.hSub first second).trans (map_sub _ _ _).symm
    · rw [op]
      show (((s.args t).map (s.value I)).map Value.num).sum = _
      rw [List.map_map]
      exact (congrArg List.sum values).trans (map_list_sum _ _).symm
    · rw [op]
      show (((s.args t).map (s.value I)).map Value.num).prod = _
      rw [List.map_map]
      exact (congrArg List.prod values).trans (map_list_prod _ _).symm

/-- Polynomials that agree at all points with integer coordinates are the same. -/
theorem polynomial_ext {p q : MvPolynomial String ℚ}
    (same : ∀ n : String → ℤ, MvPolynomial.eval (fun name => (n name : ℚ)) p =
      MvPolynomial.eval (fun name => (n name : ℚ)) q) : p = q := by
  refine MvPolynomial.funext_set (fun _ => Set.range ((↑) : ℤ → ℚ))
    (fun _ => Set.infinite_range_of_injective Int.cast_injective) fun x inside => ?_
  choose n found using fun name => inside name trivial
  rw [← funext found]
  exact same n

/-- Terms denote the same polynomial exactly if they have the same values under all assignments. -/
theorem Store.IsPolynomial.polynomial_eq_iff {s after : Store} {isInt : Bool} {t u : TermId}
    (left : s.IsPolynomial isInt t) (right : after.IsPolynomial isInt u) :
    s.polynomial t = after.polynomial u ↔ ∀ I, s.num I t = after.num I u := by
  constructor
  · intro same I
    rw [left.num_eq, right.num_eq, same]
  · intro same
    apply polynomial_ext
    intro n
    let I : Assignment := ⟨fun _ => True, n, fun name => n name⟩
    have numbers : I.number isInt = fun name => ((n name : ℚ) : ℝ) := by
      funext name
      cases isInt <;> simp [Assignment.number, Assignment.constant, TermSort.number, I]
    have known := same I
    rw [left.num_eq, right.num_eq, numbers] at known
    have cast (p : MvPolynomial String ℚ) :
        MvPolynomial.aeval (fun name => ((n name : ℚ) : ℝ)) p =
          ((MvPolynomial.eval (fun name => (n name : ℚ)) p : ℚ) : ℝ) :=
      (MvPolynomial.eval₂_comp (algebraMap ℚ ℝ) (fun name => (n name : ℚ)) p).symm
    rw [cast, cast] at known
    exact_mod_cast known

end Stratagem
