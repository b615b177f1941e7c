import Mathlib.Analysis.SpecialFunctions.Trigonometric.Inverse
import Mathlib.Analysis.SpecialFunctions.Trigonometric.Arctan
import Stratagem.Rewriting.Circular

/-!
# Circular functions at the multiples of pi

The values of sine, cosine and tangent at the multiples of `pi / 12`, and of the inverse functions
at a few rationals, are those of the tables. An angle is brought into the range of a table by the
period and by the symmetries of the function.
-/
namespace Stratagem

open Real

section Twelfths

/-- The square root of six is the product of those of two and three. -/
theorem sqrt_six : √6 = √2 * √3 := by
  rw [← sqrt_mul zero_le_two]
  norm_num

theorem sin_pi_div_twelve : sin (π / 12) = √6 / 4 - √2 / 4 := by
  rw [show π / 12 = π / 3 - π / 4 by ring, sin_sub, sin_pi_div_three, cos_pi_div_three,
    sin_pi_div_four, cos_pi_div_four, sqrt_six]
  ring

theorem cos_pi_div_twelve : cos (π / 12) = √6 / 4 + √2 / 4 := by
  rw [show π / 12 = π / 3 - π / 4 by ring, cos_sub, sin_pi_div_three, cos_pi_div_three,
    sin_pi_div_four, cos_pi_div_four, sqrt_six]
  ring

theorem sin_five_pi_div_twelve : sin (5 * π / 12) = √6 / 4 + √2 / 4 := by
  rw [show 5 * π / 12 = π / 2 - π / 12 by ring, sin_pi_div_two_sub, cos_pi_div_twelve]

theorem tan_pi_div_twelve : tan (π / 12) = 2 - √3 := by
  have two : (0 : ℝ) < √2 := by positivity
  have three : (0 : ℝ) < √3 := by positivity
  have square : √3 * √3 = 3 := mul_self_sqrt (by norm_num)
  rw [tan_eq_sin_div_cos, sin_pi_div_twelve, cos_pi_div_twelve, sqrt_six,
    div_eq_iff (by positivity)]
  linear_combination (√2 / 4) * square

theorem tan_five_pi_div_twelve : tan (5 * π / 12) = 2 + √3 := by
  have square : √3 * √3 = 3 := mul_self_sqrt (by norm_num)
  rw [show 5 * π / 12 = π / 2 - π / 12 by ring, tan_pi_div_two_sub, tan_pi_div_twelve]
  refine inv_eq_of_mul_eq_one_right ?_
  linear_combination -square

end Twelfths

namespace Arithmetic

/-- The value of a sum of square roots. -/
noncomputable def SurdSum.value (v : SurdSum) : ℝ := (v.map fun (c, n) => (c : ℝ) * √n).sum

/-- Changing the sign of all coefficients changes the sign of the value. -/
theorem SurdSum.value_signed (negative : Bool) (v : SurdSum) :
    (v.signed negative).value = if negative then -v.value else v.value := by
  cases negative with
  | false => rfl
  | true =>
    induction v with
    | nil => simp [signed, value]
    | cons e rest tail =>
      simp only [signed, value, if_true, List.map_cons, List.sum_cons] at tail ⊢
      rw [tail]
      push_cast
      ring

/-- The table of sines. -/
theorem value_of_sinTwelfths {k : ℕ} {v : SurdSum} (found : sinTwelfths k = some v) :
    v.value = sin (k * π / 12) := by
  unfold sinTwelfths at found
  split at found <;> cases found
  all_goals
    simp only [SurdSum.value, List.map_cons, List.map_nil, List.sum_cons, List.sum_nil,
      Rat.mkRat_eq_div]
    push_cast
  · simp
  · rw [show (1 : ℝ) * π / 12 = π / 12 by ring, sin_pi_div_twelve]
    ring
  · rw [show (2 : ℝ) * π / 12 = π / 6 by ring, sin_pi_div_six]
    simp
  · rw [show (3 : ℝ) * π / 12 = π / 4 by ring, sin_pi_div_four]
    ring
  · rw [show (4 : ℝ) * π / 12 = π / 3 by ring, sin_pi_div_three]
    ring
  · rw [sin_five_pi_div_twelve]
    ring
  · rw [show (6 : ℝ) * π / 12 = π / 2 by ring, sin_pi_div_two]
    simp

/-- The table of tangents. -/
theorem value_of_tanTwelfths {k : ℕ} {v : SurdSum} (found : tanTwelfths k = some v) :
    v.value = tan (k * π / 12) := by
  unfold tanTwelfths at found
  split at found <;> cases found
  all_goals
    simp only [SurdSum.value, List.map_cons, List.map_nil, List.sum_cons, List.sum_nil,
      Rat.mkRat_eq_div]
    push_cast
  · simp
  · rw [show (1 : ℝ) * π / 12 = π / 12 by ring, tan_pi_div_twelve, sqrt_one]
    ring
  · rw [show (2 : ℝ) * π / 12 = π / 6 by ring, tan_pi_div_six, one_div, ← Real.sqrt_div_self']
    ring
  · rw [show (3 : ℝ) * π / 12 = π / 4 by ring, tan_pi_div_four]
    simp
  · rw [show (4 : ℝ) * π / 12 = π / 3 by ring, tan_pi_div_three]
    ring
  · rw [tan_five_pi_div_twelve, sqrt_one]
    ring

/-- A fraction that is a whole number of twelfths. -/
theorem eq_of_twelfths? {r : ℚ} {k : ℕ} (nonneg : 0 ≤ r) (found : twelfths? r = some k) :
    (r : ℝ) = k / 12 := by
  unfold twelfths? at found
  split at found
  case isFalse => cases found
  next integral =>
  obtain rfl := Option.some.inj found
  have whole : ((r * 12).num : ℚ) = r * 12 :=
    Rat.coe_int_num_of_den_eq_one (by simpa [Rational.isIntegral] using integral)
  have above : 0 ≤ (r * 12).num := Rat.num_nonneg.mpr (by linarith)
  have natural : (((r * 12).num.toNat : ℤ) : ℚ) = r * 12 := by rw [Int.toNat_of_nonneg above, whole]
  have real : (((r * 12).num.toNat : ℕ) : ℝ) = r * 12 := by exact_mod_cast natural
  rw [real]
  ring

/-- A sine, mirrored into the first quarter of the circle. -/
theorem sin_mirror (r : ℚ) :
    sin (((if mkRat 1 2 < r then 1 - r else r : ℚ) : ℝ) * π) = sin (r * π) := by
  split
  · rw [← sin_pi_sub]
    congr 1
    push_cast
    ring
  · rfl

/-- A sine, turned by half a circle. -/
theorem sin_turn (negative : Bool) (r : ℚ) :
    (if negative then -sin (((if negative then r - 1 else r : ℚ) : ℝ) * π)
      else sin (((if negative then r - 1 else r : ℚ) : ℝ) * π)) = sin (r * π) := by
  cases negative with
  | false => rfl
  | true =>
    rw [if_pos rfl, if_pos rfl, ← sin_add_pi]
    congr 1
    push_cast
    ring

/-- The sine of a multiple of pi: the period and the symmetries of the sine bring it to a multiple
between zero and one half. -/
theorem value_of_sinAtPi? {k : ℚ} {v : SurdSum} (found : sinAtPi? k = some v) :
    v.value = sin (k * π) := by
  unfold sinAtPi? at found
  dsimp only at found
  have period : sin (k * π) = sin ((k - 2 * Rational.ofInt (k / 2).floor : ℚ) * π) := by
    rw [← sin_sub_int_mul_two_pi (k * π) (k / 2).floor, Rational.ofInt]
    congr 1
    push_cast
    ring
  have range : 0 ≤ k - 2 * Rational.ofInt (k / 2).floor ∧
      k - 2 * Rational.ofInt (k / 2).floor < 2 := by
    have low := Rat.floor_le (k / 2)
    have high := Rat.lt_floor_add_one (k / 2)
    rw [Rational.ofInt]
    push_cast at high
    constructor <;> linarith
  rw [period]
  generalize k - 2 * Rational.ofInt (k / 2).floor = r at *
  obtain ⟨m, whole, rest⟩ := Option.bind_eq_some_iff.mp found
  obtain ⟨table, looked, same⟩ := Option.bind_eq_some_iff.mp rest
  obtain rfl := Option.some.inj same
  have turned : 0 ≤ (if decide (1 ≤ r) = true then r - 1 else r) ∧
      (if decide (1 ≤ r) = true then r - 1 else r) < 1 := by
    split
    · next above =>
      have := of_decide_eq_true above
      constructor <;> linarith
    · next below => exact ⟨range.1, not_le.mp fun above => below (decide_eq_true above)⟩
  rw [SurdSum.value_signed, value_of_sinTwelfths looked, ← sin_turn (decide (1 ≤ r)) r]
  generalize (if decide (1 ≤ r) = true then r - 1 else r) = u at *
  have mirrored : 0 ≤ if mkRat 1 2 < u then 1 - u else u := by
    split
    · linarith
    · exact turned.1
  rw [← sin_mirror u, eq_of_twelfths? mirrored whole, div_mul_eq_mul_div]

/-- The tangent of a multiple of pi. -/
theorem value_of_tanAtPi? {k : ℚ} {v : SurdSum} (found : tanAtPi? k = some v) :
    v.value = tan (k * π) := by
  unfold tanAtPi? at found
  dsimp only at found
  have period : tan (k * π) = tan ((k - Rational.ofInt k.floor : ℚ) * π) := by
    rw [← tan_periodic.sub_int_mul_eq k.floor, Rational.ofInt]
    congr 1
    push_cast
    ring
  have range : 0 ≤ k - Rational.ofInt k.floor ∧ k - Rational.ofInt k.floor < 1 := by
    have low := Rat.floor_le k
    have high := Rat.lt_floor_add_one k
    rw [Rational.ofInt]
    push_cast at high
    constructor <;> linarith
  rw [period]
  generalize k - Rational.ofInt k.floor = r at *
  obtain ⟨m, whole, rest⟩ := Option.bind_eq_some_iff.mp found
  obtain ⟨table, looked, same⟩ := Option.bind_eq_some_iff.mp rest
  obtain rfl := Option.some.inj same
  have mirrored : 0 ≤ if decide (mkRat 1 2 < r) = true then 1 - r else r := by
    split
    · linarith [range.2]
    · exact range.1
  rw [SurdSum.value_signed, value_of_tanTwelfths looked, ← div_mul_eq_mul_div,
    ← eq_of_twelfths? mirrored whole]
  cases decide (mkRat 1 2 < r) with
  | false => rfl
  | true =>
    rw [if_pos rfl, if_pos rfl, ← tan_pi_sub]
    congr 1
    push_cast
    ring

/-- A circular function at a multiple of pi, if it is in the tables. -/
theorem value_of_atPi? {op : Op} {k : ℚ} {v : SurdSum} (found : atPi? op k = some v) :
    (op = .sin ∧ v.value = sin (k * π)) ∨ (op = .cos ∧ v.value = cos (k * π)) ∨
      (op = .tan ∧ v.value = tan (k * π)) := by
  unfold atPi? at found
  split at found
  · exact .inl ⟨rfl, value_of_sinAtPi? found⟩
  · refine .inr (.inl ⟨rfl, ?_⟩)
    rw [value_of_sinAtPi? found, ← sin_add_pi_div_two, Rat.mkRat_eq_div]
    congr 1
    push_cast
    ring
  · exact .inr (.inr ⟨rfl, value_of_tanAtPi? found⟩)
  · cases found

/-- An odd function at a rational, from its value at the magnitude. -/
theorem odd_of_abs {f : ℝ → ℝ} (odd : ∀ x, f (-x) = -f x) {r m : ℚ}
    (magnitude : f (r.abs : ℚ) = m * π) : f r = ((if r < 0 then -m else m : ℚ) : ℝ) * π := by
  split
  · next negative =>
    rw [Rat.abs_of_nonpos negative.le, Rat.cast_neg, odd] at magnitude
    push_cast
    linarith
  · next nonneg => rwa [Rat.abs_of_nonneg (not_lt.mp nonneg)] at magnitude

/-- The inverse sine of a rational, if it is in the table. -/
theorem arcsin_of_asinOverPi? {r k : ℚ} (found : asinOverPi? r = some k) :
    arcsin r = k * π := by
  have half : arcsin (1 / 2) = π / 6 := by
    rw [← sin_pi_div_six]
    exact arcsin_sin (by linarith [pi_pos]) (by linarith [pi_pos])
  unfold asinOverPi? at found
  obtain ⟨m, magnitude, rfl⟩ := Option.map_eq_some_iff.mp found
  refine odd_of_abs arcsin_neg ?_
  split at magnitude
  · next zero =>
    obtain rfl := Option.some.inj magnitude
    simp [zero]
  split at magnitude
  · next same =>
    obtain rfl := Option.some.inj magnitude
    rw [same, Rat.mkRat_eq_div, Rat.mkRat_eq_div]
    push_cast
    rw [half]
    ring
  split at magnitude
  · next one =>
    obtain rfl := Option.some.inj magnitude
    rw [one, Rat.mkRat_eq_div]
    push_cast
    rw [arcsin_one]
    ring
  · cases magnitude

/-- The inverse tangent of a rational, if it is in the table. -/
theorem arctan_of_atanOverPi? {r k : ℚ} (found : atanOverPi? r = some k) :
    arctan r = k * π := by
  unfold atanOverPi? at found
  split at found
  · next zero =>
    obtain rfl := Option.some.inj found
    simp [zero]
  split at found
  · next one =>
    have sign : (if r < 0 then mkRat (-1) 4 else mkRat 1 4) =
        if r < 0 then -mkRat 1 4 else mkRat 1 4 :=
      rfl
    obtain rfl := Option.some.inj found
    rw [sign]
    refine odd_of_abs arctan_neg ?_
    rw [one, Rat.mkRat_eq_div]
    push_cast
    rw [arctan_one]
    ring
  · cases found

/-- A circular function of a sum with an integral multiple of pi. -/
theorem circular_add_int_mul_pi (n : ℤ) (x : ℝ) :
    sin (n * π + x) = (if n % 2 = 0 then sin x else -sin x) ∧
      cos (n * π + x) = (if n % 2 = 0 then cos x else -cos x) ∧ tan (n * π + x) = tan x := by
  rw [add_comm, sin_add_int_mul_pi, cos_add_int_mul_pi, tan_add_int_mul_pi]
  rcases Int.emod_two_eq_zero_or_one n with even | odd
  · simp [even, (Int.even_iff.mpr even).neg_one_zpow]
  · simp [odd, (Int.odd_iff.mpr odd).neg_one_zpow]

/-- Sine and cosine of a sum with an odd multiple of a half of pi. -/
theorem circular_add_half (n : ℤ) (x : ℝ) :
    sin ((n + 1 / 2) * π + x) = (if n % 2 = 1 then -cos x else cos x) ∧
      cos ((n + 1 / 2) * π + x) = (if n % 2 = 1 then sin x else -sin x) := by
  have shifted : (n + 1 / 2) * π + x = n * π + (x + π / 2) := by ring
  obtain ⟨sine, cosine, _⟩ := circular_add_int_mul_pi n (x + π / 2)
  rw [shifted, sine, cosine, sin_add_pi_div_two, cos_add_pi_div_two]
  rcases Int.emod_two_eq_zero_or_one n with even | odd
  · simp [even]
  · simp [odd]

/-- A fraction that is an integral multiple of one half but not of one. -/
theorem eq_floor_add_half {c : ℚ} (fraction : ¬Rational.isIntegral c)
    (halves : Rational.isIntegral (c * 2)) : (c : ℝ) = c.floor + 1 / 2 := by
  have twice : ((c * 2).num : ℚ) = c * 2 :=
    Rat.coe_int_num_of_den_eq_one (by simpa [Rational.isIntegral] using halves)
  have low := Rat.floor_le c
  have high := Rat.lt_floor_add_one c
  push_cast at high
  have between : 2 * c.floor ≤ (c * 2).num ∧ (c * 2).num < 2 * c.floor + 2 := by
    constructor
    · have : (2 * c.floor : ℚ) ≤ (c * 2).num := by rw [twice]; linarith
      exact_mod_cast this
    · have : ((c * 2).num : ℚ) < 2 * c.floor + 2 := by rw [twice]; linarith
      exact_mod_cast this
  have odd : (c * 2).num = 2 * c.floor + 1 := by
    rcases (by omega : (c * 2).num = 2 * c.floor ∨ (c * 2).num = 2 * c.floor + 1) with even | odd
    · refine absurd ?_ fraction
      have whole : c = c.floor := by
        have := congrArg (fun n : ℤ => (n : ℚ)) even
        push_cast at this
        linarith
      rw [whole]
      simp [Rational.isIntegral]
    · exact odd
  have value : c = c.floor + 1 / 2 := by
    have := congrArg (fun n : ℤ => (n : ℚ)) odd
    push_cast at this
    linarith
  have real := congrArg (fun q : ℚ => (q : ℝ)) value
  push_cast at real
  exact real

end Arithmetic
end Stratagem
