import Mathlib.Data.Rat.Floor
import Mathlib.Tactic.FieldSimp
import Mathlib.Tactic.Linarith
import Mathlib.Tactic.Ring
import Stratagem.Number.Rational

/-!
# The fraction of least denominator

The fraction that is found between two rationals lies between them and no other one there has a
lesser denominator or a numerator of lesser magnitude (`Rational.simplestBetween_least`). Two
fractions are at least the reciprocal of the product of their denominators apart, so an interval
narrower than that has one fraction with a denominator up to a bound. Halving as often as `halvings`
says brings a width below its target.
-/
namespace Stratagem.Rational

/-- A fraction, given by numerator and denominator, lies between two fractions. -/
structure Between (a b c d : ℕ) (n m : ℕ) : Prop where
  /-- The denominator is positive. -/
  positive : 0 < m
  /-- It is not below the first one. -/
  above : a * m ≤ n * b
  /-- It is not above the second one. -/
  below : n * d ≤ c * m

/-- A fraction above a positive one is positive. -/
theorem Between.numerator_pos {a b c d n m : ℕ} (known : Between a b c d n m) (top : 0 < a) :
    0 < n :=
  Nat.pos_of_mul_pos_right ((Nat.mul_pos top known.positive).trans_le known.above)

/-- Without their common integral part two fractions are still positive and in order. -/
theorem fractional_parts {a b c d : ℕ} (second : 0 < d) (part : 0 < a % b)
    (ordered : a * d ≤ c * b) : a / b * d < c ∧ d * (a % b) ≤ b * (c - a / b * d) := by
  have split := Nat.div_add_mod a b
  generalize a / b = whole at split ⊢
  generalize a % b = rest at split part ⊢
  subst split
  have room : whole * d < c := by
    refine Nat.lt_of_mul_lt_mul_left (a := b) ?_
    calc b * (whole * d) < (b * whole + rest) * d := by nlinarith
      _ ≤ c * b := ordered
      _ = b * c := Nat.mul_comm c b
  obtain ⟨k, rfl⟩ := Nat.exists_eq_add_of_le room.le
  rw [Nat.add_sub_cancel_left]
  exact ⟨room, by nlinarith⟩

/-- The fraction found lies between the given ones, and no other one there has a lesser numerator
or a lesser denominator. -/
theorem simplestFraction_spec {a b c d : ℕ} (first : 0 < b) (second : 0 < d)
    (ordered : a * d ≤ c * b) :
    Between a b c d (simplestFraction a b c d).1 (simplestFraction a b c d).2 ∧
      ∀ n m, Between a b c d n m →
        (simplestFraction a b c d).1 ≤ n ∧ (simplestFraction a b c d).2 ≤ m := by
  induction a, b, c, d using simplestFraction.induct with
  | case1 a b c d base =>
    have split := Nat.div_add_mod a b
    rw [simplestFraction, dif_pos base]
    generalize a / b = whole at base split ⊢
    by_cases exact : a % b = 0
    · simp only [if_pos exact]
      rw [exact, Nat.add_zero] at split
      subst split
      refine ⟨⟨Nat.one_pos, by rw [Nat.mul_one, Nat.mul_comm], ?_⟩,
        fun n m other => ⟨?_, other.positive⟩⟩
      · rw [Nat.mul_one]
        refine Nat.le_of_mul_le_mul_left ?_ first
        rwa [← Nat.mul_assoc, Nat.mul_comm b c]
      · refine (Nat.le_mul_of_pos_right whole other.positive).trans ?_
        refine Nat.le_of_mul_le_mul_left ?_ first
        rw [← Nat.mul_assoc, Nat.mul_comm b n]
        exact other.above
    · have within : (whole + 1) * d ≤ c := (base.resolve_left first.ne').resolve_left exact
      have short := Nat.mod_lt a first
      simp only [if_neg exact]
      refine ⟨⟨Nat.one_pos, by nlinarith, by rwa [Nat.mul_one]⟩,
        fun n m other => ⟨?_, other.positive⟩⟩
      refine Nat.succ_le_of_lt (Nat.lt_of_mul_lt_mul_left (a := b) ?_)
      calc b * whole < a := by omega
        _ ≤ a * m := Nat.le_mul_of_pos_right a other.positive
        _ ≤ n * b := other.above
        _ = b * n := Nat.mul_comm n b
  | case2 a b c d base _ _ ih =>
    have split := Nat.div_add_mod a b
    have part : 0 < a % b := by omega
    obtain ⟨room, inverted⟩ := fractional_parts second part ordered
    rw [simplestFraction, dif_neg base]
    dsimp only
    generalize a / b = whole at split ih room inverted ⊢
    generalize a % b = rest at split part ih inverted ⊢
    subst split
    obtain ⟨k, rfl⟩ := Nat.exists_eq_add_of_le room.le
    rw [Nat.add_sub_cancel_left] at ih inverted ⊢
    obtain ⟨found, least⟩ := ih (by omega) part inverted
    refine ⟨⟨found.numerator_pos second, ?_, ?_⟩, fun n m other => ?_⟩
    · have := found.below
      nlinarith
    · have := found.above
      nlinarith
    · have beyond : whole * m < n := by
        refine Nat.lt_of_mul_lt_mul_left (a := b) ?_
        have := other.above
        have := other.positive
        nlinarith
      obtain ⟨more, rfl⟩ := Nat.exists_eq_add_of_lt beyond
      have inner : Between d k b rest m (more + 1) := by
        refine ⟨by omega, ?_, ?_⟩
        · have := other.below
          nlinarith
        · have := other.above
          nlinarith
      obtain ⟨top, bottom⟩ := least m (more + 1) inner
      refine ⟨?_, top⟩
      nlinarith

/-- A positive rational is the quotient of two naturals. -/
theorem eq_toNat_div_den {q : ℚ} (positive : 0 < q) : q = (q.num.toNat : ℚ) / q.den := by
  have whole : ((q.num.toNat : ℤ) : ℚ) = q.num :=
    congrArg Int.cast (Int.toNat_of_nonneg (Rat.num_pos.mpr positive).le)
  rw [← Int.cast_natCast, whole, Rat.num_div_den]

theorem div_le_div_iff_nat {a b n m : ℕ} (first : 0 < b) (second : 0 < m) :
    (a : ℚ) / b ≤ (n : ℚ) / m ↔ a * m ≤ n * b := by
  rw [div_le_div_iff₀ (Nat.cast_pos.mpr first) (Nat.cast_pos.mpr second)]
  exact_mod_cast Iff.rfl

/-- The order of two positive rationals, on numerators and denominators. -/
theorem toNat_mul_den_le {lo hi : ℚ} (positive : 0 < lo) (ordered : lo ≤ hi) :
    lo.num.toNat * hi.den ≤ hi.num.toNat * lo.den := by
  rwa [← div_le_div_iff_nat lo.den_pos hi.den_pos, ← eq_toNat_div_den positive,
    ← eq_toNat_div_den (positive.trans_le ordered)]

/-- Between positive rationals, the fraction found has the least numerator and denominator. -/
theorem simplest_of_pos {lo hi : ℚ} (positive : 0 < lo) (ordered : lo ≤ hi) :
    let found := simplestFraction lo.num.toNat lo.den hi.num.toNat hi.den
    (lo ≤ mkRat found.1 found.2 ∧ mkRat found.1 found.2 ≤ hi) ∧
      ∀ q, lo ≤ q → q ≤ hi → (mkRat found.1 found.2).num.natAbs ≤ q.num.natAbs ∧
        (mkRat found.1 found.2).den ≤ q.den := by
  intro found
  have above : 0 < hi := positive.trans_le ordered
  obtain ⟨between, least⟩ :=
    simplestFraction_spec lo.den_pos hi.den_pos (toNat_mul_den_le positive ordered)
  have value : mkRat found.1 found.2 = (found.1 : ℚ) / found.2 := by
    rw [Rat.mkRat_eq_div, Int.cast_natCast]
  refine ⟨⟨?_, ?_⟩, fun q first second => ?_⟩
  · rw [value, eq_toNat_div_den positive, div_le_div_iff_nat lo.den_pos between.positive]
    exact between.above
  · rw [value, eq_toNat_div_den above, div_le_div_iff_nat between.positive hi.den_pos]
    exact between.below
  · have inner := positive.trans_le first
    rw [eq_toNat_div_den positive, eq_toNat_div_den inner,
      div_le_div_iff_nat lo.den_pos q.den_pos] at first
    rw [eq_toNat_div_den inner, eq_toNat_div_den above,
      div_le_div_iff_nat q.den_pos hi.den_pos] at second
    obtain ⟨top, bottom⟩ := least q.num.toNat q.den ⟨q.den_pos, first, second⟩
    rw [Rat.num_mkRat, Rat.den_mkRat, if_neg between.positive.ne', if_neg between.positive.ne']
    refine ⟨(Int.natAbs_ediv_le_natAbs _ _).trans ?_, (Nat.div_le_self _ _).trans bottom⟩
    rw [Int.natAbs_natCast]
    exact top.trans (by omega)

/-- The rational found lies in the interval, and no other one there has a lesser denominator or a
numerator of lesser magnitude. -/
theorem simplestBetween_least {lo hi : ℚ} (ordered : lo ≤ hi) :
    (lo ≤ simplestBetween lo hi ∧ simplestBetween lo hi ≤ hi) ∧
      ∀ q, lo ≤ q → q ≤ hi → (simplestBetween lo hi).num.natAbs ≤ q.num.natAbs ∧
        (simplestBetween lo hi).den ≤ q.den := by
  unfold simplestBetween
  split
  · next zero => exact ⟨zero, fun q _ _ => ⟨Nat.zero_le _, q.den_pos⟩⟩
  · next other =>
    split
    · next negative =>
      obtain ⟨⟨above, below⟩, least⟩ :=
        simplest_of_pos (neg_pos.mpr negative) (neg_le_neg ordered)
      dsimp only at above below least ⊢
      rw [← Rat.neg_mkRat]
      refine ⟨⟨le_neg.mp below, neg_le.mp above⟩, fun q first second => ?_⟩
      rw [Rat.neg_den, ← Rat.neg_den q, Rat.neg_num, Int.natAbs_neg, ← Int.natAbs_neg q.num,
        ← Rat.neg_num]
      exact least (-q) (neg_le_neg second) (neg_le_neg first)
    · next positive =>
      have positive : 0 < lo := by
        by_contra low
        exact other ⟨not_lt.mp low, not_lt.mp positive⟩
      exact simplest_of_pos positive ordered

/-- The rational found lies in the interval, and no other one there has a lesser denominator. -/
theorem simplestBetween_spec {lo hi : ℚ} (ordered : lo ≤ hi) :
    (lo ≤ simplestBetween lo hi ∧ simplestBetween lo hi ≤ hi) ∧
      ∀ q, lo ≤ q → q ≤ hi → (simplestBetween lo hi).den ≤ q.den :=
  (simplestBetween_least ordered).imp_right fun least q low high => (least q low high).2

/-- Two rationals are one if they are closer than their denominators allow. -/
theorem eq_of_abs_sub_lt {q r : ℚ} (close : |q - r| * (q.den * r.den) < 1) : q = r := by
  have first : (q.den : ℚ) ≠ 0 := Nat.cast_ne_zero.mpr q.den_ne_zero
  have second : (r.den : ℚ) ≠ 0 := Nat.cast_ne_zero.mpr r.den_ne_zero
  have whole : (q - r) * (q.den * r.den) = ((q.num * r.den - r.num * q.den : ℤ) : ℚ) := by
    push_cast
    nth_rewrite 1 [← Rat.num_div_den q, ← Rat.num_div_den r]
    field_simp
  have product : |q - r| * (q.den * r.den) = |((q.num * r.den - r.num * q.den : ℤ) : ℚ)| := by
    rw [← whole, abs_mul, abs_of_nonneg (by positivity : (0 : ℚ) ≤ q.den * r.den)]
  rw [product, ← Int.cast_abs] at close
  have zero : q.num * r.den - r.num * q.den = 0 :=
    Int.abs_lt_one_iff.mp (by exact_mod_cast close)
  rw [zero, Int.cast_zero] at whole
  exact sub_eq_zero.mp ((mul_eq_zero.mp whole).resolve_right (mul_ne_zero first second))

/-- That many halvings bring a width below a positive target. -/
theorem div_two_pow_halvings_lt (width : ℚ) {target : ℚ} (positive : 0 < target) :
    width / 2 ^ halvings width target < target := by
  have power : (width / target).ceil.toNat < 2 ^ halvings width target := Nat.lt_log2_self
  rw [div_lt_iff₀ (by positivity), mul_comm, ← div_lt_iff₀ positive]
  calc width / target ≤ ((width / target).ceil : ℚ) := Rat.le_ceil
    _ ≤ ((width / target).ceil.toNat : ℚ) := by exact_mod_cast Int.self_le_toNat _
    _ < 2 ^ halvings width target := by exact_mod_cast power

/-!
## Descent to the simplest rational

The simplest rational between two others comes from a descent on the interval: zero if it is in it,
the reflection of what a negative interval leads to, the least integer in a positive one, or else
the common integral part plus the reciprocal of what the reciprocals of the fractional parts lead
to. Every inversion shortens the denominators of the ends, so the descent is shorter than their sum
(`Rational.exists_descent`), and what it leads to has the least denominator in the interval and,
among the rationals of that denominator, the least magnitude (`Rational.simplestBetween_simplest`).
-/

/-- The descent from an interval, given by its ends, to a rational in a number of steps. -/
inductive Descent : ℕ → ℚ → ℚ → ℚ → Prop
  /-- Zero is the simplest rational there is. -/
  | zero {lo hi : ℚ} (below : lo ≤ 0) (above : 0 ≤ hi) : Descent 0 lo hi 0
  /-- A negative interval is the reflection of a positive one. -/
  | reflect {n : ℕ} {lo hi s : ℚ} (negative : hi < 0) (inner : Descent n (-hi) (-lo) s) :
      Descent (n + 1) lo hi (-s)
  /-- The lower end of a positive interval is an integer. -/
  | integer {lo hi : ℚ} (positive : 0 < lo) (whole : (⌊lo⌋ : ℚ) = lo) : Descent 0 lo hi ⌊lo⌋
  /-- The integer after the lower end is in the interval. -/
  | next {lo hi : ℚ} (positive : 0 < lo) (fraction : (⌊lo⌋ : ℚ) ≠ lo) (within : ⌊lo⌋ + 1 ≤ hi) :
      Descent 0 lo hi (⌊lo⌋ + 1)
  /-- No integer is in the interval: both ends have one integral part. -/
  | invert {n : ℕ} {lo hi s : ℚ} (positive : 0 < lo) (fraction : (⌊lo⌋ : ℚ) ≠ lo)
      (short : hi < ⌊lo⌋ + 1) (inner : Descent n (hi - ⌊lo⌋)⁻¹ (lo - ⌊lo⌋)⁻¹ s) :
      Descent (n + 1) lo hi (⌊lo⌋ + s⁻¹)

/-- The integral part of a fraction. -/
theorem floor_div_nat (a b : ℕ) : ((⌊(a : ℚ) / b⌋ : ℤ) : ℚ) = ((a / b : ℕ) : ℚ) := by
  rw [Rat.floor_natCast_div_natCast]
  norm_cast

/-- A fraction is its integral part and its fractional part. -/
theorem div_eq_add {b : ℕ} (positive : 0 < b) (a : ℕ) :
    (a : ℚ) / b = ((a / b : ℕ) : ℚ) + ((a % b : ℕ) : ℚ) / b := by
  have nonzero : (b : ℚ) ≠ 0 := Nat.cast_ne_zero.mpr positive.ne'
  have split : ((b * (a / b) + a % b : ℕ) : ℚ) = a := congrArg Nat.cast (Nat.div_add_mod a b)
  rw [← split]
  push_cast
  field_simp

/-- The integral part of a fraction is the fraction just when nothing is left over. -/
theorem floor_div_nat_eq_iff {b : ℕ} (positive : 0 < b) (a : ℕ) :
    ((⌊(a : ℚ) / b⌋ : ℤ) : ℚ) = a / b ↔ a % b = 0 := by
  have nonzero : (b : ℚ) ≠ 0 := Nat.cast_ne_zero.mpr positive.ne'
  rw [floor_div_nat, div_eq_add positive, left_eq_add, div_eq_zero_iff, Nat.cast_eq_zero,
    or_iff_left nonzero]

/-- A step of the descent between fractions: the reciprocals of the fractional parts are fractions
with smaller denominators. -/
theorem Descent.invert_fractions {n a b c d p q : ℕ} (top : 0 < a) (first : 0 < b) (second : 0 < d)
    (part : a % b ≠ 0) (room : a / b * d < c) (short : c < (a / b + 1) * d) (numerator : 0 < p)
    (inner : Descent n (d / (c - a / b * d : ℕ)) (b / (a % b : ℕ)) (p / q)) :
    Descent (n + 1) (a / b) (c / d) ((a / b * p + q : ℕ) / p) := by
  have lower : ((a : ℚ) / b - ⌊(a : ℚ) / b⌋)⁻¹ = b / (a % b : ℕ) := by
    rw [floor_div_nat, div_eq_add first, add_sub_cancel_left, inv_div]
  have upper : ((c : ℚ) / d - ⌊(a : ℚ) / b⌋)⁻¹ = d / (c - a / b * d : ℕ) := by
    have nonzero : (d : ℚ) ≠ 0 := Nat.cast_ne_zero.mpr second.ne'
    rw [floor_div_nat, Nat.cast_sub room.le, Nat.cast_mul, ← inv_div _ (d : ℚ), sub_div,
      mul_div_cancel_right₀ _ nonzero]
  rw [← lower, ← upper] at inner
  have step := Descent.invert (div_pos (Nat.cast_pos.mpr top) (Nat.cast_pos.mpr first))
    (mt (floor_div_nat_eq_iff first a).mp part) ?_ inner
  · have nonzero : (p : ℚ) ≠ 0 := Nat.cast_ne_zero.mpr numerator.ne'
    rw [floor_div_nat] at step
    convert step using 1
    push_cast
    field_simp
  · rw [floor_div_nat, div_lt_iff₀ (Nat.cast_pos.mpr second)]
    exact_mod_cast short

/-- Between positive fractions the descent leads to the fraction found, and each inversion leaves
smaller denominators. -/
theorem exists_descent_of_fractions {a b c d : ℕ} (top : 0 < a) (first : 0 < b) (second : 0 < d)
    (ordered : a * d ≤ c * b) :
    ∃ n, n + 2 ≤ b + d ∧ Descent n (a / b) (c / d)
      ((simplestFraction a b c d).1 / (simplestFraction a b c d).2) := by
  induction a, b, c, d using simplestFraction.induct with
  | case1 a b c d base =>
    have positive : (0 : ℚ) < a / b := div_pos (Nat.cast_pos.mpr top) (Nat.cast_pos.mpr first)
    have integral := floor_div_nat_eq_iff first a
    refine ⟨0, by omega, ?_⟩
    rw [simplestFraction, dif_pos base]
    by_cases exact : a % b = 0
    · simp only [if_pos exact, Nat.cast_one, div_one]
      rw [← floor_div_nat]
      exact .integer positive (integral.mpr exact)
    · have within : (a / b + 1) * d ≤ c := (base.resolve_left first.ne').resolve_left exact
      simp only [if_neg exact, Nat.cast_one, div_one, Nat.cast_add]
      rw [← floor_div_nat]
      refine .next positive (mt integral.mp exact) ?_
      rw [floor_div_nat, le_div_iff₀ (Nat.cast_pos.mpr second)]
      exact_mod_cast within
  | case2 a b c d base lowerSmaller upperSmaller ih =>
    have left : a % b ≠ 0 := fun exact => base (.inr (.inl exact))
    have part : 0 < a % b := Nat.pos_of_ne_zero left
    have short : c < (a / b + 1) * d := not_le.mp fun within => base (.inr (.inr within))
    obtain ⟨room, inverted⟩ := fractional_parts second part ordered
    obtain ⟨found, -⟩ := simplestFraction_spec (Nat.sub_pos_of_lt room) part inverted
    obtain ⟨n, depth, inner⟩ := ih second (Nat.sub_pos_of_lt room) part inverted
    rw [simplestFraction, dif_neg base]
    exact ⟨n + 1, by omega, inner.invert_fractions top first second left room short
      (found.numerator_pos second)⟩

/-- Between positive rationals the descent leads to the fraction found. -/
theorem exists_descent_of_pos {lo hi : ℚ} (positive : 0 < lo) (ordered : lo ≤ hi) :
    let found := simplestFraction lo.num.toNat lo.den hi.num.toNat hi.den
    ∃ n, n + 2 ≤ lo.den + hi.den ∧ Descent n lo hi (mkRat found.1 found.2) := by
  intro found
  have above : 0 < hi := positive.trans_le ordered
  have top : 0 < lo.num.toNat := by
    have := Rat.num_pos.mpr positive
    omega
  obtain ⟨n, depth, descent⟩ :=
    exists_descent_of_fractions top lo.den_pos hi.den_pos (toNat_mul_den_le positive ordered)
  rw [← eq_toNat_div_den positive, ← eq_toNat_div_den above] at descent
  refine ⟨n, depth, ?_⟩
  rwa [Rat.mkRat_eq_div, Int.cast_natCast]

/-- The descent leads to the rational found, in fewer steps than the sum of the denominators. -/
theorem exists_descent {lo hi : ℚ} (ordered : lo ≤ hi) :
    ∃ n < lo.den + hi.den, Descent n lo hi (simplestBetween lo hi) := by
  unfold simplestBetween
  split
  · next zero => exact ⟨0, Nat.add_pos_left lo.den_pos _, .zero zero.1 zero.2⟩
  · next other =>
    split
    · next negative =>
      obtain ⟨n, depth, descent⟩ :=
        exists_descent_of_pos (neg_pos.mpr negative) (neg_le_neg ordered)
      rw [Rat.neg_den, Rat.neg_den] at depth
      dsimp only at descent ⊢
      rw [← Rat.neg_mkRat]
      exact ⟨n + 1, by omega, .reflect negative descent⟩
    · next positive =>
      have positive : 0 < lo := by
        by_contra low
        exact other ⟨not_lt.mp low, not_lt.mp positive⟩
      obtain ⟨n, depth, descent⟩ := exists_descent_of_pos positive ordered
      exact ⟨n, by omega, descent⟩

/-- Of two rationals of one denominator the one with the lesser numerator is nearer to zero. -/
theorem abs_le_abs_of_num {q r : ℚ} (same : q.den = r.den) (smaller : q.num.natAbs ≤ r.num.natAbs) :
    |q| ≤ |r| := by
  rw [← Rat.num_div_den q, ← Rat.num_div_den r, same, abs_div, abs_div, ← Int.cast_abs,
    ← Int.cast_abs, Int.abs_eq_natAbs, Int.abs_eq_natAbs]
  gcongr

/-- **The simplest rational of an interval**: the descent ends, and what it leads to lies in the
interval, has the least denominator there, and among the rationals of that denominator the least
magnitude. -/
theorem simplestBetween_simplest {lo hi : ℚ} (ordered : lo ≤ hi) :
    (∃ n < lo.den + hi.den, Descent n lo hi (simplestBetween lo hi)) ∧
    (lo ≤ simplestBetween lo hi ∧ simplestBetween lo hi ≤ hi) ∧
    (∀ q, lo ≤ q → q ≤ hi → (simplestBetween lo hi).den ≤ q.den) ∧
    ∀ q, lo ≤ q → q ≤ hi → q.den = (simplestBetween lo hi).den → |simplestBetween lo hi| ≤ |q| := by
  obtain ⟨inside, least⟩ := simplestBetween_least ordered
  exact ⟨exists_descent ordered, inside, fun q low high => (least q low high).2,
    fun q low high same => abs_le_abs_of_num same.symm (least q low high).1⟩

/-- Between two negative fractions there is one of denominator three and none of a lesser one. -/
theorem simplestBetween_simplest_case :
    (-7 / 5 : ℚ) ≤ -13 / 10 ∧ simplestBetween (-7 / 5) (-13 / 10) = -4 / 3 ∧
    (∃ n < 15, Descent n (-7 / 5) (-13 / 10) (-4 / 3)) ∧
    ∀ q : ℚ, -7 / 5 ≤ q → q ≤ -13 / 10 → 3 ≤ q.den := by
  have ordered : (-7 / 5 : ℚ) ≤ -13 / 10 := by norm_num
  have found : simplestBetween (-7 / 5) (-13 / 10) = -4 / 3 := by decide +kernel
  have denominators : (-7 / 5 : ℚ).den + (-13 / 10 : ℚ).den = 15 := by decide +kernel
  have three : (-4 / 3 : ℚ).den = 3 := by decide +kernel
  obtain ⟨ends, -, least, -⟩ := simplestBetween_simplest ordered
  rw [found, denominators] at ends
  rw [found, three] at least
  exact ⟨ordered, found, ends, least⟩

end Stratagem.Rational
