import Mathlib.LinearAlgebra.Lagrange
import Stratagem.Proofs.Polynomial.Division

/-!
# Interpolation by divided differences

The Newton form of repeated divided differences is the polynomial of least degree through the points
(`Poly.toPolynomial_interpolate`), and no other of a lower degree than their number passes through
them (`Poly.eq_interpolate_iff`). A divided difference is the highest coefficient of the polynomial
through a run of points, and the rounds of differences compute these for longer and longer runs.
-/
namespace Stratagem.Poly

open Polynomial

variable {v r : ℕ → ℚ}

/-- The divided difference of the points from `i` to `i + k`: the coefficient of the highest power
of the polynomial through them. -/
noncomputable def dividedDifference (v r : ℕ → ℚ) (k i : ℕ) : ℚ :=
  (Lagrange.interpolate (Finset.Icc i (i + k)) v r).coeff k

theorem dividedDifference_zero (v r : ℕ → ℚ) (i : ℕ) : dividedDifference v r 0 i = r i := by
  rw [dividedDifference, Nat.add_zero, Finset.Icc_self, Lagrange.interpolate_singleton,
    coeff_C_zero]

/-- The highest coefficient of the polynomial through a run times a linear factor. -/
theorem coeff_mul_basisDivisor (distinct : Function.Injective v) (k i : ℕ) (x y : ℚ) :
    (Lagrange.interpolate (Finset.Icc i (i + k)) v r * Lagrange.basisDivisor x y).coeff (k + 1) =
      dividedDifference v r k i * (x - y)⁻¹ := by
  have short : (Lagrange.interpolate (Finset.Icc i (i + k)) v r).coeff (k + 1) = 0 := by
    refine coeff_eq_zero_of_degree_lt ?_
    have bound := Lagrange.degree_interpolate_lt r (distinct.injOn (s := ↑(Finset.Icc i (i + k))))
    have size : (Finset.Icc i (i + k)).card = k + 1 := by
      rw [Nat.card_Icc]
      omega
    rwa [size] at bound
  rw [Lagrange.basisDivisor, mul_left_comm, coeff_C_mul, mul_sub, coeff_sub, coeff_mul_X,
    coeff_mul_C, short, zero_mul, sub_zero, mul_comm, dividedDifference]

/-- A divided difference is the quotient of a difference of divided differences. -/
theorem dividedDifference_succ (distinct : Function.Injective v) (k i : ℕ) :
    dividedDifference v r (k + 1) i =
      (dividedDifference v r k (i + 1) - dividedDifference v r k i) / (v (i + 1 + k) - v i) := by
  have last : (Finset.Icc i (i + (k + 1))).erase (i + 1 + k) = Finset.Icc i (i + k) := by
    ext j
    simp only [Finset.mem_erase, Finset.mem_Icc]
    omega
  have first : (Finset.Icc i (i + (k + 1))).erase i = Finset.Icc (i + 1) (i + 1 + k) := by
    ext j
    simp only [Finset.mem_erase, Finset.mem_Icc]
    omega
  have split := Lagrange.interpolate_eq_add_interpolate_erase r
    (distinct.injOn (s := ↑(Finset.Icc i (i + (k + 1)))))
    (Finset.mem_Icc.mpr (by omega : i ≤ i ∧ i ≤ i + (k + 1)))
    (Finset.mem_Icc.mpr (by omega : i ≤ i + 1 + k ∧ i + 1 + k ≤ i + (k + 1)))
    (by omega : i ≠ i + 1 + k)
  rw [last, first] at split
  rw [dividedDifference, split, coeff_add, coeff_mul_basisDivisor distinct,
    coeff_mul_basisDivisor distinct, ← neg_sub (v (i + 1 + k)) (v i), inv_neg]
  ring

/-- The polynomial through one point more. -/
theorem interpolate_range_succ (distinct : Function.Injective v) (k : ℕ) :
    Lagrange.interpolate (Finset.range (k + 1)) v r =
      Lagrange.interpolate (Finset.range k) v r +
        C (dividedDifference v r k 0) * Lagrange.nodal (Finset.range k) v := by
  have run : Finset.range (k + 1) = Finset.Icc 0 (0 + k) := by
    ext j
    simp only [Finset.mem_range, Finset.mem_Icc]
    omega
  have longer : (Lagrange.interpolate (Finset.range (k + 1)) v r).degree ≤ k := by
    have bound := Lagrange.degree_interpolate_le r
      (distinct.injOn (s := ↑(Finset.range (k + 1))))
    rwa [Finset.card_range, Nat.add_sub_cancel] at bound
  have product :
      (C (dividedDifference v r k 0) * Lagrange.nodal (Finset.range k) v).degree ≤ k := by
    refine (degree_mul_le _ _).trans ((add_le_add degree_C_le le_rfl).trans ?_)
    rw [zero_add, Lagrange.degree_nodal, Finset.card_range]
  have leading : (Lagrange.nodal (Finset.range k) v).coeff k = 1 := by
    have monic := Lagrange.nodal_monic (s := Finset.range k) (v := v)
    rwa [Monic, leadingCoeff, Lagrange.natDegree_nodal, Finset.card_range] at monic
  have lower : (Lagrange.interpolate (Finset.range (k + 1)) v r -
      C (dividedDifference v r k 0) * Lagrange.nodal (Finset.range k) v).degree <
        (Finset.range k).card := by
    rw [Finset.card_range, degree_lt_iff_coeff_zero]
    intro j above
    rcases above.eq_or_lt with rfl | past
    · rw [coeff_sub, coeff_C_mul, leading, mul_one, run, dividedDifference, sub_self]
    · exact coeff_eq_zero_of_degree_lt
        ((degree_sub_le _ _).trans_lt ((max_le longer product).trans_lt (by exact_mod_cast past)))
  refine eq_add_of_sub_eq (Lagrange.eq_interpolate_of_eval_eq r distinct.injOn lower ?_)
  intro j inside
  rw [eval_sub, eval_mul, Lagrange.eval_nodal_at_node inside, mul_zero, sub_zero]
  exact Lagrange.eval_interpolate_at_node r distinct.injOn
    (Finset.range_mono (Nat.le_succ k) inside)

/-- One round of divided differences over runs of points. -/
theorem differences_eq (distinct : Function.Injective v) (k i m extra : ℕ) :
    differences ((List.range' i (m + extra)).map v) ((List.range' (i + 1 + k) m).map v)
        ((List.range' i (m + 1)).map (dividedDifference v r k)) =
      (List.range' i m).map (dividedDifference v r (k + 1)) := by
  induction m generalizing i with
  | zero =>
    simp only [List.range'_zero, List.map_nil]
    unfold differences
    simp
  | succ m ih =>
    have earlier : List.range' i (m + 1 + extra) = i :: List.range' (i + 1) (m + extra) := by
      rw [Nat.add_right_comm, List.range'_succ]
    have later : List.range' (i + 1 + k) (m + 1) =
        (i + 1 + k) :: List.range' (i + 1 + 1 + k) m := by
      rw [List.range'_succ, Nat.add_right_comm (i + 1) k 1]
    have values : List.range' i (m + 1 + 1) = i :: (i + 1) :: List.range' (i + 1 + 1) m := by
      rw [List.range'_succ, List.range'_succ]
    have rest : List.range' (i + 1) (m + 1) = (i + 1) :: List.range' (i + 1 + 1) m :=
      List.range'_succ
    have step := ih (i + 1)
    rw [rest] at step
    rw [earlier, later, values, List.range'_succ]
    simp only [List.map_cons] at step ⊢
    rw [differences, step, dividedDifference_succ distinct]

/-- The coefficients of the Newton form are the divided differences from the first point on. -/
theorem newtonCoefficients_eq (distinct : Function.Injective v) (k m : ℕ) :
    newtonCoefficients ((List.range' 0 (k + m)).map v) ((List.range' k m).map v)
        ((List.range' 0 m).map (dividedDifference v r k)) =
      (List.range' k m).map (dividedDifference v r · 0) := by
  induction m generalizing k with
  | zero =>
    simp only [List.range'_zero, List.map_nil]
    unfold newtonCoefficients
    rfl
  | succ m ih =>
    have round := differences_eq (r := r) distinct k 0 m (k + 1)
    have step := ih (k + 1)
    rw [Nat.zero_add, Nat.add_comm 1 k, Nat.add_comm m (k + 1)] at round
    rw [Nat.add_right_comm k 1 m] at step round
    rw [← Nat.add_assoc k m 1, List.range'_succ (s := k)]
    rw [List.range'_succ (s := 0) (n := m)] at round ⊢
    simp only [List.map_cons] at round ⊢
    rw [newtonCoefficients, round, step]

/-- The Newton form from the `k`-th point on completes the polynomial through the points before. -/
theorem interpolate_range_add (distinct : Function.Injective v) (k m : ℕ) :
    Lagrange.interpolate (Finset.range (k + m)) v r =
      Lagrange.interpolate (Finset.range k) v r + Lagrange.nodal (Finset.range k) v *
        (((List.range' k m).map v).zip ((List.range' k m).map (dividedDifference v r · 0))).foldr
          (fun node acc => acc * (X - C node.1) + C node.2) 0 := by
  induction m generalizing k with
  | zero => simp
  | succ m ih =>
    have nodes : Lagrange.nodal (Finset.range (k + 1)) v =
        (X - C (v k)) * Lagrange.nodal (Finset.range k) v := by
      rw [Finset.range_add_one, Lagrange.nodal_insert_eq_nodal Finset.notMem_range_self]
    rw [← Nat.add_assoc, Nat.add_right_comm, ih (k + 1), nodes, interpolate_range_succ distinct,
      List.range'_succ]
    simp only [List.map_cons, List.zip_cons_cons, List.foldr_cons]
    ring

/-- **Interpolation** computes the polynomial of least degree through the points. -/
theorem toPolynomial_interpolate (distinct : Function.Injective v) (n : ℕ) :
    (interpolate ((List.range n).map v) ((List.range n).map r)).toPolynomial =
      Lagrange.interpolate (Finset.range n) v r := by
  have coefficients := newtonCoefficients_eq (r := r) distinct 0 n
  simp only [funext (dividedDifference_zero v r), Nat.zero_add] at coefficients
  have form := interpolate_range_add (r := r) distinct 0 n
  simp only [Finset.range_zero, Lagrange.interpolate_empty, Lagrange.nodal_empty, zero_add,
    one_mul] at form
  rw [interpolate, List.range_eq_range', coefficients, form]
  generalize ((List.range' 0 n).map v).zip _ = points
  induction points with
  | nil => simp
  | cons point rest ih =>
    simp only [List.foldr_cons, toPolynomial_add, toPolynomial_mul, ih, toPolynomial_constant,
      toPolynomial_ofCoeffs, Coefficients.toPolynomial_cons, Coefficients.toPolynomial_nil]
    simp only [C_neg, C_1, mul_zero, add_zero, mul_one]
    ring

/-- A list without repetitions begins a sequence without repetitions. -/
theorem exists_sequence {xs : List ℚ} (distinct : xs.Nodup) :
    ∃ v : ℕ → ℚ, Function.Injective v ∧ (List.range xs.length).map v = xs := by
  have others : {x : ℚ | x ∉ xs}.Infinite := (List.finite_toSet xs).infinite_compl
  let later := others.natEmbedding
  let v (i : ℕ) : ℚ := if inside : i < xs.length then xs[i] else later i
  have apart {i j : ℕ} (first : i < xs.length) (second : ¬j < xs.length) : v i ≠ v j := by
    simp only [v, dif_pos first, dif_neg second]
    intro same
    exact (later j).2 (same ▸ List.getElem_mem first)
  refine ⟨v, fun i j same => ?_, List.ext_getElem (by simp) fun i _ inside => ?_⟩
  · by_cases first : i < xs.length
    · by_cases second : j < xs.length
      · simp only [v, dif_pos first, dif_pos second] at same
        exact (distinct.getElem_inj_iff).mp same
      · exact absurd same (apart first second)
    · by_cases second : j < xs.length
      · exact absurd same.symm (apart second first)
      · simp only [v, dif_neg first, dif_neg second] at same
        exact later.injective (Subtype.ext same)
  · simp only [List.getElem_map, List.getElem_range, v, dif_pos inside]

/-- The polynomial has these ordinates at these abscissae. -/
def PassesThrough (p : Poly) (xs ys : List ℚ) : Prop := List.Forall₂ (fun x y => p.eval x = y) xs ys

/-- **Interpolation** finds the only polynomial of a degree below the number of points that passes
through them. -/
theorem eq_interpolate_iff {p : Poly} {xs ys : List ℚ} (distinct : xs.Nodup)
    (count : xs.length = ys.length) :
    p = interpolate xs ys ↔ p.toPolynomial.degree < xs.length ∧ p.PassesThrough xs ys := by
  obtain ⟨v, injective, abscissae⟩ := exists_sequence distinct
  obtain ⟨r, ordinates⟩ : ∃ r : ℕ → ℚ, (List.range xs.length).map r = ys :=
    ⟨(ys.getD · 0), List.ext_getElem (by simp [count]) fun i _ inside => by simp [inside]⟩
  generalize xs.length = n at abscissae ordinates ⊢
  subst abscissae ordinates
  have passes : p.PassesThrough ((List.range n).map v) ((List.range n).map r) ↔
      ∀ i ∈ Finset.range n, p.toPolynomial.eval (v i) = r i := by
    rw [PassesThrough, List.forall₂_map_left_iff, List.forall₂_map_right_iff, List.forall₂_same]
    simp
  have size : n = (Finset.range n).card := (Finset.card_range n).symm
  rw [passes, ← toPolynomial_injective.eq_iff, toPolynomial_interpolate injective]
  constructor
  · intro same
    rw [same]
    refine ⟨?_, fun i inside => Lagrange.eval_interpolate_at_node r injective.injOn inside⟩
    exact (Lagrange.degree_interpolate_lt r injective.injOn).trans_eq (by rw [← size])
  · rintro ⟨short, values⟩
    exact Lagrange.eq_interpolate_of_eval_eq r injective.injOn (size ▸ short) values

end Stratagem.Poly
