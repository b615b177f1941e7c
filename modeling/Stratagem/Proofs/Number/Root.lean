import Mathlib.Algebra.Order.Field.Rat
import Mathlib.Algebra.Order.Floor.Semiring
import Mathlib.Algebra.Order.Ring.Cast
import Mathlib.Algebra.Ring.Int.Parity
import Mathlib.Data.Rat.Lemmas
import Stratagem.Number.Rational
import Stratagem.Proofs.Number.RealPower

/-!
# Exact powers and roots of rationals

A power or a root that the arithmetic of rationals returns is exact, and a root of a rational that
is not negative is not negative.
-/
namespace Stratagem

theorem Integer.root?_spec {n r : ℤ} {k : ℕ} (found : Integer.root? n k = some r) :
    r ^ k = n ∧ (0 ≤ n → 0 ≤ r) := by
  unfold Integer.root? at found
  dsimp only at found
  split at found
  · cases found
  · split at found
    · next negative =>
      split at found
      · cases found
      · next odd =>
        split at found
        · next exact =>
          cases found
          have power : (Integer.floorRoot n.natAbs k : ℤ) ^ k = n.natAbs := by
            exact_mod_cast exact
          refine ⟨?_, fun positive => absurd positive (by omega)⟩
          rw [(Nat.odd_iff.mpr (by omega)).neg_pow, power]
          omega
        · cases found
    · next positive =>
      split at found
      · next exact =>
        cases found
        have power : (Integer.floorRoot n.natAbs k : ℤ) ^ k = n.natAbs := by
          exact_mod_cast exact
        refine ⟨?_, fun _ => Int.natCast_nonneg _⟩
        rw [power]
        omega
      · cases found

namespace Rational

theorem root?_spec {q r : ℚ} {k : ℕ} (found : root? q k = some r) :
    r ^ k = q ∧ (0 ≤ q → 0 ≤ r) := by
  unfold root? at found
  obtain ⟨n, numerator, found⟩ := Option.bind_eq_some_iff.mp found
  obtain ⟨d, denominator, found⟩ := Option.bind_eq_some_iff.mp found
  obtain ⟨top, sign⟩ := Integer.root?_spec numerator
  obtain ⟨bottom, positive⟩ := Integer.root?_spec denominator
  cases found
  rw [ofFraction, Rat.divInt_eq_div]
  refine ⟨?_, fun above => ?_⟩
  · rw [div_pow, ← Int.cast_pow, ← Int.cast_pow, top, bottom, Int.cast_natCast, Rat.num_div_den]
  · exact div_nonneg (Int.cast_nonneg (sign (Rat.num_nonneg.mpr above)))
      (Int.cast_nonneg (positive (Int.natCast_nonneg _)))

/-- Powers are exact, and zero has no negative ones. -/
theorem power?_spec {q r : ℚ} {e : ℤ} (found : power? q e = some r) :
    r = q ^ e ∧ (e < 0 → q ≠ 0) := by
  unfold power? at found
  split at found
  · cases found
  dsimp only at found
  split at found
  · next negative =>
    split at found
    · cases found
    next nonzero =>
    have magnitude : e = -(e.natAbs : ℤ) := by omega
    refine ⟨?_, fun _ zero => nonzero ?_⟩
    · rw [← Option.some.inj found, magnitude, zpow_neg, zpow_natCast, Int.natAbs_neg,
        Int.natAbs_natCast]
    · rw [zero, zero_pow (by omega)]
  · next nonneg =>
    refine ⟨?_, fun negative => absurd negative nonneg⟩
    have magnitude : e = (e.natAbs : ℤ) := by omega
    rw [← Option.some.inj found, magnitude, zpow_natCast, Int.natAbs_natCast]

theorem power?_natCast {q r : ℚ} {k : ℕ} (found : power? q k = some r) : r = q ^ k := by
  exact_mod_cast (power?_spec found).1

/-- Exponents of 32 bits are not refused. -/
theorem power?_of_lt (q : ℚ) {k : ℕ} (small : k < 2 ^ 32) : power? q k = some (q ^ k) := by
  unfold power?
  dsimp only
  rw [if_neg (by omega), if_neg (by omega), Int.natAbs_natCast]

end Rational

/-!
## Perfect powers

The root of a natural number that is found digit by digit is the integral part of the real root
(`Integer.floorRoot_eq`). An integer is a perfect power just when the power of that root gives it
back, and a rational in lowest terms is one just when its numerator and its denominator are, so an
exact root is found whenever there is one (`Rational.roots_exact`).
-/

namespace Integer

variable {n k : ℕ}

/-- The digits kept so far are a root from below, and one more of the last place is too much. This
holds before every digit, so in the end the place is the unit. -/
theorem rootDigits_spec (bits found : ℕ) (low : found ^ k ≤ n) (high : n < (found + 2 ^ bits) ^ k) :
    rootDigits n k bits found ^ k ≤ n ∧ n < (rootDigits n k bits found + 1) ^ k := by
  induction bits generalizing found with
  | zero => exact ⟨low, high⟩
  | succ bits ih =>
    unfold rootDigits
    simp only [Nat.pow_eq]
    by_cases within : (found + 2 ^ bits) ^ k ≤ n
    · rw [if_pos within]
      refine ih _ within ?_
      rwa [Nat.add_assoc, ← Nat.two_mul, ← Nat.pow_succ']
    · rw [if_neg within]
      exact ih _ low (not_le.mp within)

/-- So many binary digits are enough for a root. -/
theorem lt_two_pow_log2_div (positive : k ≠ 0) (n : ℕ) : n < (2 ^ (n.log2 / k + 1)) ^ k := by
  have digits : n.log2 + 1 ≤ (n.log2 / k + 1) * k := by
    have := Nat.lt_div_mul_add (a := n.log2) (Nat.pos_of_ne_zero positive)
    rw [Nat.add_mul, Nat.one_mul]
    omega
  calc n < 2 ^ (n.log2 + 1) := Nat.lt_log2_self
    _ ≤ 2 ^ ((n.log2 / k + 1) * k) := Nat.pow_le_pow_right two_pos digits
    _ = _ := Nat.pow_mul ..

/-- The root found is the greatest number whose power does not exceed the radicand. -/
theorem floorRoot_spec (positive : k ≠ 0) (n : ℕ) :
    floorRoot n k ^ k ≤ n ∧ n < (floorRoot n k + 1) ^ k := by
  unfold floorRoot
  split
  · next zero =>
    subst zero
    rw [Nat.zero_add, Nat.one_pow, Nat.zero_pow (Nat.pos_of_ne_zero positive)]
    exact ⟨le_rfl, Nat.one_pos⟩
  · refine rootDigits_spec _ _ ?_ ?_
    · rw [Nat.zero_pow (Nat.pos_of_ne_zero positive)]
      exact Nat.zero_le n
    · rw [Nat.zero_add]
      exact lt_two_pow_log2_div positive n

/-- The root found is the integral part of the real root. -/
theorem floorRoot_eq (positive : k ≠ 0) (n : ℕ) : floorRoot n k = ⌊realRoot k n⌋₊ := by
  obtain ⟨low, high⟩ := floorRoot_spec positive n
  have nonneg : (0 : ℝ) ≤ realRoot k n := realRoot_nonneg n.cast_nonneg k
  have power : realRoot k n ^ k = (n : ℝ) := HasRoot.realRoot_pow ⟨positive, fun _ => n.cast_nonneg⟩
  refine ((Nat.floor_eq_iff nonneg).mpr ⟨?_, ?_⟩).symm
  · rw [← pow_le_pow_iff_left₀ (Nat.cast_nonneg _) nonneg positive, power]
    exact_mod_cast low
  · rw [← pow_lt_pow_iff_left₀ nonneg (by positivity) positive, power]
    exact_mod_cast high

/-- The root of a perfect power is its base. -/
theorem floorRoot_pow (positive : k ≠ 0) (m : ℕ) : floorRoot (m ^ k) k = m := by
  obtain ⟨low, high⟩ := floorRoot_spec positive (m ^ k)
  have below := (Nat.pow_le_pow_iff_left positive).mp low
  have above := (Nat.pow_lt_pow_iff_left positive).mp high
  omega

/-- The exact root of an integer is the integer whose power it is, the one that is not negative if
there are two. -/
theorem root?_eq_some_iff (positive : k ≠ 0) {n r : ℤ} :
    root? n k = some r ↔ r ^ k = n ∧ (Even k → 0 ≤ r) := by
  constructor
  · intro found
    obtain ⟨power, sign⟩ := root?_spec found
    exact ⟨power, fun even => sign (power ▸ even.pow_nonneg r)⟩
  · rintro ⟨rfl, sign⟩
    have magnitude : floorRoot (r ^ k).natAbs k = r.natAbs := by
      rw [Int.natAbs_pow, floorRoot_pow positive]
    have exact : Nat.pow r.natAbs k = (r ^ k).natAbs := (Int.natAbs_pow r k).symm
    unfold root?
    dsimp only
    rw [magnitude, if_neg positive]
    rcases lt_or_ge r 0 with negative | nonneg
    · have odd : Odd k := Nat.not_even_iff_odd.mp fun even => (sign even).not_gt negative
      rw [if_pos (odd.pow_neg negative), if_neg (by rw [Nat.odd_iff.mp odd]; decide), if_pos exact,
        Int.ofNat_natAbs_of_nonpos negative.le, neg_neg]
    · rw [if_neg (pow_nonneg nonneg k).not_gt, if_pos exact, Int.natAbs_of_nonneg nonneg]

end Integer

namespace Rational

variable {k : ℕ}

/-- The exact root of a rational is the rational whose power it is, the one that is not negative if
there are two. -/
theorem root?_eq_some_iff (positive : k ≠ 0) {r s : ℚ} :
    root? r k = some s ↔ s ^ k = r ∧ (Even k → 0 ≤ s) := by
  constructor
  · intro found
    obtain ⟨power, sign⟩ := root?_spec found
    exact ⟨power, fun even => sign (power ▸ even.pow_nonneg s)⟩
  · rintro ⟨rfl, sign⟩
    -- powers of numbers without a common divisor have none, so lowest terms stay lowest terms
    have numerator : Integer.root? (s ^ k).num k = some s.num := by
      rw [Rat.num_pow, Integer.root?_eq_some_iff positive]
      exact ⟨rfl, fun even => Rat.num_nonneg.mpr (sign even)⟩
    have denominator : Integer.root? ((s ^ k).den : ℤ) k = some (s.den : ℤ) := by
      rw [Rat.den_pow, Integer.root?_eq_some_iff positive]
      exact ⟨(Nat.cast_pow _ _).symm, fun _ => Int.natCast_nonneg _⟩
    simp only [root?, numerator, denominator, Option.bind_eq_bind, Option.bind_some, ofFraction,
      Rat.num_divInt_den]

/-- **Exact roots are found exactly when they exist.** The root of a natural number on which they
rest is the integral part of the real one. A root of a rational is found just when the rational is
the power of some rational; then the power of the root is the rational, and a root of even degree is
not negative. -/
theorem roots_exact (positive : 1 ≤ k) (r : ℚ) :
    (∀ n : ℕ, Integer.floorRoot n k = ⌊realRoot k n⌋₊) ∧
    ((∃ s, root? r k = some s) ↔ ∃ t : ℚ, t ^ k = r) ∧
    ∀ s, root? r k = some s → s ^ k = r ∧ (Even k → 0 ≤ s) := by
  have degree : k ≠ 0 := Nat.one_le_iff_ne_zero.mp positive
  refine ⟨Integer.floorRoot_eq degree, ⟨?_, ?_⟩, fun s => (root?_eq_some_iff degree).mp⟩
  · rintro ⟨s, found⟩
    exact ⟨s, ((root?_eq_some_iff degree).mp found).1⟩
  · rintro ⟨t, power⟩
    rcases Nat.even_or_odd k with even | odd
    · refine ⟨|t|, (root?_eq_some_iff degree).mpr ⟨?_, fun _ => abs_nonneg t⟩⟩
      rw [even.pow_abs, power]
    · refine ⟨t, (root?_eq_some_iff degree).mpr ⟨power, fun even => ?_⟩⟩
      exact absurd even (Nat.not_even_iff_odd.mpr odd)

/-- The cube root of a negative fraction, and a fraction of which the denominator is a square and the
numerator is not. -/
theorem roots_exact_case :
    (1 ≤ 3 ∧ (-2 / 3 : ℚ) ^ 3 = -8 / 27 ∧ ∃ s, root? (-8 / 27) 3 = some s) ∧
    1 ≤ 2 ∧ root? (8 / 9) 2 = none ∧ ¬∃ t : ℚ, t ^ 2 = 8 / 9 := by
  have power : (-2 / 3 : ℚ) ^ 3 = -8 / 27 := by norm_num
  have none : root? (8 / 9) 2 = none := by decide +kernel
  refine ⟨⟨by decide, power, (roots_exact (by decide) _).2.1.mpr ⟨_, power⟩⟩, by decide, none, ?_⟩
  rw [← (roots_exact (by decide) _).2.1, none]
  rintro ⟨s, found⟩
  cases found

end Rational
end Stratagem
