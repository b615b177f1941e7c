import Stratagem.Proofs.Algebraic.Interval
import Stratagem.Proofs.Polynomial.Separation
import Stratagem.Proofs.Reasoning

/-!
# The isolation of real roots

Isolation finds the real roots of a separable polynomial, each of them once and in increasing order
(`Poly.locating_isolateRoots`). It runs as the same splitting without a bound on the halvings does
(`Poly.splitsInto_isolateRoots`): two roots are further apart than the root bound divided by two to
the power of the number of halvings allowed.
-/
namespace Stratagem.Poly

open Polynomial

variable {p : Poly} {lo hi : ℚ} {x : ℝ}

/-- An interval with one root by its Sturm count, and no roots at its ends, isolates it. -/
theorem isolates_of_countRoots (separable : p.toPolynomial.Separable) (ordered : lo ≤ hi)
    (first : p.eval lo ≠ 0) (last : p.eval hi ≠ 0) (single : countRoots p.sturm lo hi = 1) :
    ∃ x, (Interval.mk lo hi).Isolates p x := by
  rw [countRoots_sturm separable ordered] at single
  obtain ⟨x, only⟩ := Finset.card_eq_one.mp single
  have member (y : ℝ) : (p.toReal.eval y = 0 ∧ (lo : ℝ) < y ∧ y ≤ hi) ↔ y = x := by
    have same := Finset.ext_iff.mp only y
    rwa [Finset.mem_filter, mem_realRoots separable.ne_zero, Finset.mem_singleton] at same
  obtain ⟨root, low, high⟩ := (member x).mpr rfl
  refine ⟨x, root, low, lt_of_le_of_ne high ?_, fun y other above below => ?_⟩
  · rintro rfl
    exact last ((eval_toReal_eq_zero_iff hi).mp root)
  · refine (member y).mp ⟨other, lt_of_le_of_ne above ?_, below⟩
    rintro rfl
    exact first ((eval_toReal_eq_zero_iff lo).mp other)

/-- The count of an interval that isolates a root is one. -/
theorem countRoots_of_isolates (separable : p.toPolynomial.Separable) {range : Interval}
    (known : range.Isolates p x) : countRoots p.sturm range.lo range.hi = 1 := by
  rw [countRoots_sturm separable known.lo_lt_hi.le, Finset.card_eq_one]
  refine ⟨x, ?_⟩
  ext y
  rw [Finset.mem_filter, mem_realRoots separable.ne_zero, Finset.mem_singleton]
  constructor
  · rintro ⟨root, low, high⟩
    exact known.unique y root low.le high
  · rintro rfl
    exact ⟨known.root, known.lo_lt, known.lt_hi.le⟩

/-- The count up to a point, from a point below all roots. -/
theorem rootsBelow_eq (separable : p.toPolynomial.Separable) (t : ℚ) :
    p.rootsBelow t = (p.realRoots.filter (· ≤ (t : ℝ))).card := by
  have sums := sturmSum_eq separable (-p.rootBound : ℚ) t
  have none : p.realRoots.filter (· ≤ ((-p.rootBound : ℚ) : ℝ)) = ∅ := by
    refine Finset.filter_false_of_mem fun y member => not_le.mpr ?_
    have within := abs_lt_rootBound separable.ne_zero ((mem_realRoots separable.ne_zero).mp member)
    rw [Rat.cast_neg]
    exact (abs_lt.mp within).1
  rw [sturmSum, sturmSum, ← variations_eq, ← variations_eq, none, Finset.card_empty] at sums
  rw [rootsBelow, countRoots]
  omega

/-- The count up to the lower end of an interval that isolates a root is the number of lesser
roots. -/
theorem rootsBelow_lo (separable : p.toPolynomial.Separable) {range : Interval}
    (known : range.Isolates p x) :
    p.rootsBelow range.lo = (p.realRoots.filter (· < x)).card := by
  rw [rootsBelow_eq separable]
  congr 1
  refine Finset.filter_congr fun y member => ?_
  have root := (mem_realRoots separable.ne_zero).mp member
  refine ⟨fun below => below.trans_lt known.lo_lt, fun below => ?_⟩
  by_contra above
  exact below.ne (known.unique y root (not_le.mp above).le (below.le.trans known.lt_hi.le))

/-! ### The gap around a rational root -/

/-- A distance around a rational root within which and at which there is no other root. -/
def Gap (p : Poly) (root gap : ℚ) : Prop :=
  0 < gap ∧ ∀ y, p.toReal.eval y = 0 → |y - root| ≤ gap → y = root

theorem Gap.eval_ne_zero {root gap t : ℚ} (known : Gap p root gap) (distance : |t - root| = gap) :
    p.eval t ≠ 0 := by
  intro zero
  have same := known.2 t ((eval_toReal_eq_zero_iff t).mpr zero) (by exact_mod_cast distance.le)
  rw [Rat.cast_inj.mp same, sub_self, abs_zero] at distance
  exact known.1.ne distance

theorem Gap.eval_sub_ne_zero {root gap : ℚ} (known : Gap p root gap) : p.eval (root - gap) ≠ 0 :=
  known.eval_ne_zero (by rw [sub_sub_cancel_left, abs_neg, abs_of_pos known.1])

theorem Gap.eval_add_ne_zero {root gap : ℚ} (known : Gap p root gap) : p.eval (root + gap) ≠ 0 :=
  known.eval_ne_zero (by rw [add_sub_cancel_left, abs_of_pos known.1])

theorem gap_of_countRoots (separable : p.toPolynomial.Separable) {root gap : ℚ}
    (zero : p.eval root = 0) (positive : 0 < gap)
    (single : countRoots p.sturm (root - gap) (root + gap) = 1)
    (first : p.eval (root - gap) ≠ 0) (last : p.eval (root + gap) ≠ 0) : Gap p root gap := by
  have ordered : root - gap ≤ root + gap := by linarith
  obtain ⟨x, isolates⟩ := isolates_of_countRoots separable ordered first last single
  have unique : ∀ y, p.toReal.eval y = 0 → |y - root| ≤ gap → y = x := by
    intro y other near
    obtain ⟨low, high⟩ := abs_le.mp near
    refine isolates.unique y other ?_ ?_
    · push_cast
      linarith
    · push_cast
      linarith
  have middle : (root : ℝ) = x := unique root ((eval_toReal_eq_zero_iff root).mpr zero) (by
    rw [sub_self, abs_zero]
    exact_mod_cast positive.le)
  exact ⟨positive, fun y other near => (unique y other near).trans middle.symm⟩

/-- The Sturm count shows a gap. -/
theorem Gap.countRoots_eq_one (separable : p.toPolynomial.Separable) {root gap : ℚ}
    (known : Gap p root gap) (zero : p.eval root = 0) :
    countRoots p.sturm (root - gap) (root + gap) = 1 := by
  rw [countRoots_sturm separable (by linarith [known.1]), Finset.card_eq_one]
  refine ⟨root, ?_⟩
  ext y
  rw [Finset.mem_filter, mem_realRoots separable.ne_zero, Finset.mem_singleton]
  have positive : (0 : ℝ) < gap := by exact_mod_cast known.1
  constructor
  · rintro ⟨other, low, high⟩
    push_cast at low high
    refine known.2 y other (abs_le.mpr ⟨?_, ?_⟩) <;> linarith
  · rintro rfl
    push_cast
    refine ⟨(eval_toReal_eq_zero_iff root).mpr zero, ?_, ?_⟩ <;> linarith

/-! ### Halving without a bound -/

/-- The Sturm count and the ends show a distance around a rational root to be a gap. -/
def ShowsGap (p : Poly) (root gap : ℚ) : Prop :=
  countRoots p.sturm (root - gap) (root + gap) = 1 ∧ p.eval (root - gap) ≠ 0 ∧
    p.eval (root + gap) ≠ 0

/-- Halving a distance as long as it does not show itself to be a gap ends at another one. -/
inductive HalvesTo (p : Poly) (root : ℚ) : ℚ → ℚ → Prop
  /-- The distance is a gap. -/
  | shown {gap : ℚ} (shows : p.ShowsGap root gap) : HalvesTo p root gap gap
  /-- It is halved. -/
  | half {gap reached : ℚ} (missed : ¬p.ShowsGap root gap)
      (next : HalvesTo p root (gap / 2) reached) : HalvesTo p root gap reached

/-- Splitting `(lo, hi]` as long as the Sturm count shows two roots in it ends with these ranges. A
root in the middle becomes a point and the parts begin at a gap from it. -/
inductive SplitsInto (p : Poly) : ℚ → ℚ → List Interval → Prop
  /-- There is no root. -/
  | none {lo hi : ℚ} (count : countRoots p.sturm lo hi = 0) : SplitsInto p lo hi []
  /-- The only root is the upper end. -/
  | point {lo hi : ℚ} (count : countRoots p.sturm lo hi = 1) (zero : p.eval hi = 0) :
      SplitsInto p lo hi [.point hi]
  /-- There is one root. -/
  | single {lo hi : ℚ} (count : countRoots p.sturm lo hi = 1) (other : p.eval hi ≠ 0) :
      SplitsInto p lo hi [.between lo hi]
  /-- There are more, none of them in the middle. -/
  | halves {lo hi : ℚ} {left right : List Interval} (several : 1 < countRoots p.sturm lo hi)
      (other : p.eval ((lo + hi) / 2) ≠ 0) (lower : SplitsInto p lo ((lo + hi) / 2) left)
      (upper : SplitsInto p ((lo + hi) / 2) hi right) : SplitsInto p lo hi (left ++ right)
  /-- There are more, one of them in the middle. -/
  | around {lo hi gap : ℚ} {left right : List Interval} (several : 1 < countRoots p.sturm lo hi)
      (zero : p.eval ((lo + hi) / 2) = 0) (halved : HalvesTo p ((lo + hi) / 2) ((hi - lo) / 4) gap)
      (lower : SplitsInto p lo ((lo + hi) / 2 - gap) left)
      (upper : SplitsInto p ((lo + hi) / 2 + gap) hi right) :
      SplitsInto p lo hi (left ++ .point ((lo + hi) / 2) :: right)

/-- What halving ends at is a gap, no larger than the first distance. -/
theorem HalvesTo.gap (separable : p.toPolynomial.Separable) {root first reached : ℚ}
    (run : HalvesTo p root first reached) (zero : p.eval root = 0) (positive : 0 < first) :
    Gap p root reached ∧ reached ≤ first := by
  induction run with
  | shown shows =>
    exact ⟨gap_of_countRoots separable zero positive shows.1 shows.2.1 shows.2.2, le_rfl⟩
  | half missed next ih =>
    obtain ⟨known, below⟩ := ih (half_pos positive)
    exact ⟨known, below.trans (half_le_self positive.le)⟩

/-- The rounds suffice for the halving to end if they bring the first distance down to one that is
a gap. -/
theorem halvesTo_rootGap (separable : p.toPolynomial.Separable) {root : ℚ}
    (zero : p.eval root = 0) {least : ℚ} (small : ∀ gap, 0 < gap → gap ≤ least → Gap p root gap)
    (rounds : ℕ) {gap : ℚ} (positive : 0 < gap) (enough : gap ≤ least * 2 ^ rounds) :
    HalvesTo p root gap (rootGap p p.sturm root rounds gap) := by
  induction rounds generalizing gap with
  | zero =>
    have known := small gap positive (by simpa using enough)
    exact .shown ⟨known.countRoots_eq_one separable zero, known.eval_sub_ne_zero,
      known.eval_add_ne_zero⟩
  | succ rounds ih =>
    unfold rootGap
    dsimp only
    split
    · next shown => exact .shown shown
    · next missed =>
      refine .half missed (ih (half_pos positive) ?_)
      rw [pow_succ] at enough
      linarith

/-! ### The number of halvings -/

/-- Two roots in an interval make it wide. -/
theorem lt_width (separable : p.toPolynomial.Separable) (ordered : lo < hi)
    (several : 1 < countRoots p.sturm lo hi) :
    8 * p.rootBound < (hi - lo) * 2 ^ p.isolationDepth := by
  rw [countRoots_sturm separable ordered.le] at several
  obtain ⟨x, here, y, there, other⟩ := Finset.one_lt_card.mp several
  rw [Finset.mem_filter, mem_realRoots separable.ne_zero] at here there
  have apart := separation separable here.1 there.1 other
  have inside : |x - y| < hi - lo := by
    rw [abs_lt]
    constructor <;> linarith [here.2.1, here.2.2, there.2.1, there.2.2]
  have wide : (8 : ℝ) * p.rootBound < (hi - lo) * 2 ^ p.isolationDepth :=
    apart.trans_lt (mul_lt_mul_of_pos_right inside (by positivity))
  exact_mod_cast wide

/-- Distances of at most the separation are gaps. -/
theorem gap_of_le (separable : p.toPolynomial.Separable) {root gap : ℚ} (zero : p.eval root = 0)
    (positive : 0 < gap) (small : gap ≤ p.rootBound / 2 ^ p.isolationDepth) : Gap p root gap := by
  refine ⟨positive, fun y other near => ?_⟩
  by_contra different
  have apart := separation separable other ((eval_toReal_eq_zero_iff root).mpr zero) different
  rw [le_div_iff₀ (by positivity)] at small
  have upper : |y - root| * 2 ^ p.isolationDepth ≤ p.rootBound :=
    (mul_le_mul_of_nonneg_right near (by positivity)).trans (by exact_mod_cast small)
  have bound : (1 : ℝ) ≤ p.rootBound := by exact_mod_cast one_le_rootBound p
  linarith

theorem rootBound_pos (p : Poly) : 0 < p.rootBound := zero_lt_one.trans_le (one_le_rootBound p)

/-- The splitting ends within a number of halvings on each way down that would bring the width of
the interval below the distance of any two roots. -/
theorem splitsInto_isolateIn (separable : p.toPolynomial.Separable) (depth : ℕ)
    (some : depth ≠ 0) (ordered : lo < hi) (within : hi - lo ≤ 2 * p.rootBound)
    (enough : (hi - lo) * 2 ^ p.isolationDepth ≤ 2 * p.rootBound * 2 ^ depth) :
    p.SplitsInto lo hi (p.isolateIn p.sturm depth lo hi) := by
  induction depth generalizing lo hi with
  | zero => exact absurd rfl some
  | succ depth ih =>
    unfold isolateIn
    split
    · next count => exact .none count
    · next count =>
      split
      · next zero => exact .point count zero
      · next other => exact .single count other
    · next no one =>
      have several : 1 < countRoots p.sturm lo hi := Nat.one_lt_iff_ne_zero_and_ne_one.mpr ⟨no, one⟩
      have wide := lt_width separable ordered several
      -- two roots leave more than one halving, so both halves still have one
      have positive := rootBound_pos p
      have more : depth ≠ 0 := by
        rintro rfl
        rw [zero_add, pow_one] at enough
        linarith
      have half {lo' hi' : ℚ} (narrow : hi' - lo' ≤ (hi - lo) / 2) (nonempty : lo' < hi') :
          p.SplitsInto lo' hi' (p.isolateIn p.sturm depth lo' hi') := by
        refine ih more nonempty (by linarith) ?_
        have scaled := mul_le_mul_of_nonneg_right narrow
          (by positivity : (0 : ℚ) ≤ 2 ^ p.isolationDepth)
        rw [pow_succ] at enough
        linarith
      dsimp only
      split
      · next zero =>
        have quarter : 0 < (hi - lo) / 4 := by linarith
        have halved := halvesTo_rootGap separable zero (fun _ => gap_of_le separable zero)
          p.isolationDepth quarter (by rw [div_mul_cancel₀ _ (by positivity)]; linarith)
        obtain ⟨gap, below⟩ := halved.gap separable zero quarter
        exact .around several zero halved (half (by linarith [gap.1]) (by linarith))
          (half (by linarith [gap.1]) (by linarith))
      · next other =>
        exact .halves several other (half (by linarith) (by linarith))
          (half (by linarith) (by linarith))

theorem isolationDepth_ne_zero (p : Poly) : p.isolationDepth ≠ 0 := Nat.succ_ne_zero _

/-- The splitting of the range of all roots ends. -/
theorem splitsInto_isolateRoots (separable : p.toPolynomial.Separable)
    (varies : p.isConstant = false) :
    p.SplitsInto (-p.rootBound) p.rootBound p.isolateRoots := by
  have positive := rootBound_pos p
  rw [isolateRoots, if_neg (Bool.eq_false_iff.mp varies)]
  exact splitsInto_isolateIn separable p.isolationDepth (isolationDepth_ne_zero p) (by linarith)
    (by linarith) (by rw [sub_neg_eq_add, two_mul])

/-! ### Isolation -/

/-- The ranges locate the roots between two reals, one each and in increasing order. -/
def Locating (p : Poly) (ranges : List Interval) (lo hi : ℝ) : Prop :=
  ∃ roots : List ℝ, List.Forall₂ (fun range x => range.Locates p x) ranges roots ∧
    roots.Pairwise (· < ·) ∧ ∀ x, x ∈ roots ↔ p.toReal.eval x = 0 ∧ lo < x ∧ x < hi

theorem Locating.nil {lo hi : ℝ} (none : ∀ x, p.toReal.eval x = 0 → lo < x → ¬x < hi) :
    p.Locating [] lo hi := by
  refine ⟨[], .nil, .nil, fun x => ?_⟩
  simp only [List.not_mem_nil, false_iff]
  exact fun inside => none x inside.1 inside.2.1 inside.2.2

theorem Locating.single {lo hi : ℝ} {range : Interval} (known : range.Locates p x) (low : lo < x)
    (high : x < hi) (unique : ∀ y, p.toReal.eval y = 0 → lo < y → y < hi → y = x) :
    p.Locating [range] lo hi := by
  refine ⟨[x], .cons known .nil, List.pairwise_singleton _ _, fun y => ?_⟩
  rw [List.mem_singleton]
  constructor
  · rintro rfl
    exact ⟨known.root, low, high⟩
  · exact fun inside => unique y inside.1 inside.2.1 inside.2.2

/-- The roots on both sides of a point that is none. -/
theorem Locating.append {left right : List Interval} {lo mid hi : ℝ}
    (first : p.Locating left lo mid) (second : p.Locating right mid hi) (low : lo ≤ mid)
    (high : mid ≤ hi) (nonzero : p.toReal.eval mid ≠ 0) : p.Locating (left ++ right) lo hi := by
  obtain ⟨below, located, increasing, exact⟩ := first
  obtain ⟨above, located', increasing', exact'⟩ := second
  refine ⟨below ++ above, List.rel_append located located', ?_, fun x => ?_⟩
  · refine List.pairwise_append.mpr ⟨increasing, increasing', fun x here y there => ?_⟩
    exact ((exact x).mp here).2.2.trans ((exact' y).mp there).2.1
  · rw [List.mem_append, exact, exact', ← and_or_left]
    refine and_congr_right fun root => ⟨?_, fun inside => ?_⟩
    · rintro (inside | inside)
      · exact ⟨inside.1, inside.2.trans_le high⟩
      · exact ⟨low.trans_lt inside.1, inside.2⟩
    · rcases lt_trichotomy x mid with left | rfl | right
      · exact .inl ⟨inside.1, left⟩
      · exact absurd root nonzero
      · exact .inr ⟨right, inside.2⟩

/-- The roots on both sides of a gap around a rational root, and that root. -/
theorem Locating.around {left right : List Interval} {root gap : ℚ}
    (first : p.Locating left lo (root - gap : ℚ)) (second : p.Locating right (root + gap : ℚ) hi)
    (zero : p.eval root = 0) (known : Gap p root gap) (low : lo ≤ root - gap)
    (high : root + gap ≤ hi) : p.Locating (left ++ .point root :: right) lo hi := by
  have middle : p.Locating [.point root] (root - gap : ℚ) (root + gap : ℚ) := by
    refine .single (.inr ⟨(eval_toReal_eq_zero_iff root).mpr zero, rfl, rfl⟩) ?_ ?_
      fun y other below above => known.2 y other ?_
    · exact_mod_cast sub_lt_self root known.1
    · exact_mod_cast lt_add_of_pos_right root known.1
    · push_cast at below above
      rw [abs_le]
      constructor <;> linarith
  have ordered : root - gap ≤ root + gap := by linarith [known.1]
  have rest := middle.append second (Rat.cast_le.mpr ordered) (Rat.cast_le.mpr high)
    (mt (eval_toReal_eq_zero_iff _).mp known.eval_add_ne_zero)
  exact first.append rest (Rat.cast_le.mpr low) (Rat.cast_le.mpr (ordered.trans high))
    (mt (eval_toReal_eq_zero_iff _).mp known.eval_sub_ne_zero)

/-- One root by the Sturm count. -/
theorem locating_of_countRoots_one (separable : p.toPolynomial.Separable) (ordered : lo < hi)
    (first : p.eval lo ≠ 0) (last : p.eval hi ≠ 0) (single : countRoots p.sturm lo hi = 1) :
    p.Locating [.between lo hi] lo hi := by
  obtain ⟨x, isolates⟩ := isolates_of_countRoots separable ordered.le first last single
  rw [Interval.between, if_pos ordered.le]
  exact .single (.inl isolates) isolates.lo_lt isolates.lt_hi
    fun y root low high => isolates.unique y root low.le high.le

theorem locating_of_countRoots_zero (separable : p.toPolynomial.Separable) (ordered : lo < hi)
    (none : countRoots p.sturm lo hi = 0) : p.Locating [] lo hi := by
  rw [countRoots_sturm separable ordered.le, Finset.card_eq_zero,
    Finset.filter_eq_empty_iff] at none
  exact .nil fun x root low high =>
    none ((mem_realRoots separable.ne_zero).mpr root) ⟨low, high.le⟩

/-- The ranges of a splitting locate the roots. -/
theorem SplitsInto.locating (separable : p.toPolynomial.Separable) {ranges : List Interval}
    (run : p.SplitsInto lo hi ranges) (ordered : lo < hi) (first : p.eval lo ≠ 0)
    (last : p.eval hi ≠ 0) : p.Locating ranges lo hi := by
  induction run with
  | none count => exact locating_of_countRoots_zero separable ordered count
  | point count zero => exact absurd zero last
  | single count => exact locating_of_countRoots_one separable ordered first last count
  | @halves lo hi left right several other lower upper below above =>
    refine (below (by linarith) first other).append (above (by linarith) other last) ?_ ?_
      (mt (eval_toReal_eq_zero_iff _).mp other)
    · exact_mod_cast (by linarith : lo ≤ (lo + hi) / 2)
    · exact_mod_cast (by linarith : (lo + hi) / 2 ≤ hi)
  | around several zero halved lower upper below above =>
    obtain ⟨gap, small⟩ := halved.gap separable zero (by linarith)
    exact (below (by linarith) first gap.eval_sub_ne_zero).around
      (above (by linarith) gap.eval_add_ne_zero last) zero gap (by linarith) (by linarith)

/-- The ranges stand one after the other between two ends. -/
def Consecutive (ranges : List Interval) (lo hi : ℚ) : Prop :=
  (∀ range ∈ ranges, lo ≤ range.lo ∧ range.hi ≤ hi) ∧ ranges.Pairwise (·.hi ≤ ·.lo)

theorem Consecutive.append {left right : List Interval} {lower upper : ℚ}
    (first : Consecutive left lo lower) (second : Consecutive right upper hi) (low : lo ≤ upper)
    (between : lower ≤ upper) (high : lower ≤ hi) : Consecutive (left ++ right) lo hi := by
  refine ⟨fun range member => ?_, List.pairwise_append.mpr ⟨first.2, second.2, ?_⟩⟩
  · rcases List.mem_append.mp member with here | there
    · exact ⟨(first.1 range here).1, (first.1 range here).2.trans high⟩
    · exact ⟨low.trans (second.1 range there).1, (second.1 range there).2⟩
  · exact fun a here b there => ((first.1 a here).2.trans between).trans (second.1 b there).1

theorem Consecutive.single {range : Interval} (low : lo ≤ range.lo) (high : range.hi ≤ hi) :
    Consecutive [range] lo hi :=
  ⟨fun _ member => List.mem_singleton.mp member ▸ ⟨low, high⟩, List.pairwise_singleton _ _⟩

/-- The ranges of a splitting stand one after the other. -/
theorem SplitsInto.consecutive (separable : p.toPolynomial.Separable) {ranges : List Interval}
    (run : p.SplitsInto lo hi ranges) (ordered : lo < hi) : Consecutive ranges lo hi := by
  induction run with
  | none => exact ⟨fun _ member => absurd member List.not_mem_nil, .nil⟩
  | point => exact .single ordered.le le_rfl
  | single =>
    rw [Interval.between, if_pos ordered.le]
    exact .single le_rfl le_rfl
  | halves several other lower upper below above =>
    exact (below (by linarith)).append (above (by linarith)) (by linarith) le_rfl (by linarith)
  | @around lo hi gap left right several zero halved lower upper below above =>
    obtain ⟨known, small⟩ := halved.gap separable zero (by linarith)
    have positive := known.1
    have point : Consecutive [.point ((lo + hi) / 2)] ((lo + hi) / 2 - gap) ((lo + hi) / 2) :=
      .single (sub_le_self _ positive.le : (lo + hi) / 2 - gap ≤ (lo + hi) / 2) le_rfl
    have middle := point.append (above (by linarith)) (by linarith) (by linarith) (by linarith)
    exact (below (by linarith)).append middle (by linarith) le_rfl (by linarith)

/-- **Isolation**: the ranges locate the real roots, one each and in increasing order. -/
theorem locating_isolateRoots (separable : p.toPolynomial.Separable) :
    p.Locating p.isolateRoots (-p.rootBound) p.rootBound := by
  have nonzero := separable.ne_zero
  cases constant : p.isConstant with
  | true =>
    rw [isolateRoots, if_pos constant]
    refine .nil fun x root _ _ => nonzero ?_
    rw [toReal, eq_C_of_natDegree_eq_zero (isConstant_iff.mp constant), map_C, eval_C,
      map_eq_zero] at root
    rw [eq_C_of_natDegree_eq_zero (isConstant_iff.mp constant), root, C_0]
  | false =>
    have positive := rootBound_pos p
    have off {t : ℚ} (size : |t| = p.rootBound) : p.eval t ≠ 0 := by
      intro zero
      have within := abs_lt_rootBound nonzero ((eval_toReal_eq_zero_iff t).mpr zero)
      exact (by exact_mod_cast within : |t| < p.rootBound).ne size
    have found := (splitsInto_isolateRoots separable constant).locating separable
      (by linarith) (off (by rw [abs_neg, abs_of_pos positive])) (off (abs_of_pos positive))
    rwa [Rat.cast_neg] at found

/-- Isolation finds every root. -/
theorem exists_mem_isolateRoots (separable : p.toPolynomial.Separable)
    (root : p.toReal.eval x = 0) : ∃ range ∈ p.isolateRoots, range.Locates p x := by
  obtain ⟨roots, located, -, exact⟩ := locating_isolateRoots separable
  have within := abs_lt.mp (abs_lt_rootBound separable.ne_zero root)
  exact exists_of_forall₂ located.flip ((exact x).mpr ⟨root, within⟩)

/-- The ranges are the roots in increasing order: each is the point of a rational root or has one
root in it and none at its ends, and each root lies in one of them only. -/
structure IsolatesAll (p : Poly) (ranges : List Interval) : Prop where
  /-- The ranges stand one after the other. -/
  increasing : ranges.Pairwise fun a b => a.lo < b.lo ∧ a.hi ≤ b.lo
  /-- A point is a rational root. -/
  point : ∀ range ∈ ranges, range.isPoint = true → p.eval range.lo = 0
  /-- Any other range has one root in it, which is no end of it. -/
  proper : ∀ range ∈ ranges, range.isPoint = false →
    p.eval range.lo ≠ 0 ∧ p.eval range.hi ≠ 0 ∧ ∃! x : ℝ, p.toReal.eval x = 0 ∧ range.Holds x
  /-- No root is missing or in two ranges. -/
  complete : ∀ x : ℝ, p.toReal.eval x = 0 → ∃! range, range ∈ ranges ∧ range.Holds x

/-- Ranges that locate the roots one after the other are the roots. -/
theorem Locating.isolatesAll (separable : p.toPolynomial.Separable) {ranges : List Interval}
    (known : p.Locating ranges (-p.rootBound) p.rootBound) (consecutive : Consecutive ranges lo hi) :
    p.IsolatesAll ranges := by
  obtain ⟨roots, located, increasing, exact⟩ := known
  have locates (i : ℕ) (inside : i < ranges.length) (inside' : i < roots.length) :
      ranges[i].Locates p roots[i] := located.get inside inside'
  have count := located.length_eq
  refine ⟨List.pairwise_iff_getElem.mpr fun i j first second below => ?_,
    fun range member isPoint => ?_, fun range member isProper => ?_, fun x root => ?_⟩
  · have after := List.pairwise_iff_getElem.mp consecutive.2 i j first second below
    have less := List.pairwise_iff_getElem.mp increasing i j (count ▸ first) (count ▸ second) below
    have here := locates i first (count ▸ first)
    have there := locates j second (count ▸ second)
    refine ⟨lt_of_not_ge fun above => less.ne ?_, after⟩
    -- with one lower end for both, the first root would lie in the second range too
    refine there.unique here.root ⟨?_, less.le.trans there.holds.2⟩
    exact (Rat.cast_le.mpr above).trans here.holds.1
  · obtain ⟨x, -, isolates | ⟨root, low, -⟩⟩ := exists_of_forall₂ located member
    · exact absurd isPoint (Bool.eq_false_iff.mp isolates.not_isPoint)
    · exact (eval_toReal_eq_zero_iff range.lo).mp (low ▸ root)
  · obtain ⟨x, -, known⟩ := exists_of_forall₂ located member
    rcases known with isolates | ⟨-, low, high⟩
    · have ends := isolates.lo_lt_hi.le
      refine ⟨isolates.eval_ne_zero le_rfl ends isolates.lo_lt.ne,
        isolates.eval_ne_zero ends le_rfl isolates.lt_hi.ne', x,
        ⟨isolates.root, isolates.lo_lt.le, isolates.lt_hi.le⟩,
        fun y other => isolates.unique y other.1 other.2.1 other.2.2⟩
    · have ends : range.lo = range.hi := Rat.cast_injective (low.trans high.symm)
      exact absurd (Interval.isPoint_iff.mpr ends) (Bool.eq_false_iff.mp isProper)
  · have within := abs_lt.mp (abs_lt_rootBound separable.ne_zero root)
    obtain ⟨i, inside, rfl⟩ := List.getElem_of_mem ((exact x).mpr ⟨root, within⟩)
    have here := locates i (count.symm ▸ inside) inside
    refine ⟨ranges[i], ⟨List.getElem_mem _, here.holds⟩, ?_⟩
    rintro other ⟨member, holds⟩
    obtain ⟨j, inside', rfl⟩ := List.getElem_of_mem member
    have same := (locates j inside' (count ▸ inside')).unique root holds
    have distinct : roots.Nodup := increasing.imp fun less => less.ne
    simp only [(distinct.getElem_inj_iff).mp same]

/-- **Root isolation is complete and disjoint**: for a square-free polynomial that is no constant,
splitting the range of all roots without a bound on the halvings ends with the ranges isolation
returns, and these are the roots in increasing order; and the roots below a rational that is none
are as many as counted. -/
theorem isolateRoots_exact (squareFree : Squarefree p.toPolynomial)
    (varies : p.isConstant = false) :
    p.SplitsInto (-p.rootBound) p.rootBound p.isolateRoots ∧ p.IsolatesAll p.isolateRoots ∧
      ∀ t : ℚ, p.eval t ≠ 0 →
        (p.rootsBelow t : ℕ∞) = {x : ℝ | p.toReal.eval x = 0 ∧ x < t}.encard := by
  have separable := PerfectField.separable_iff_squarefree.mpr squareFree
  have run := splitsInto_isolateRoots separable varies
  have positive := rootBound_pos p
  refine ⟨run, (locating_isolateRoots separable).isolatesAll separable
    (run.consecutive separable (by linarith)), fun t other => ?_⟩
  have same : {x : ℝ | p.toReal.eval x = 0 ∧ x < t} =
      (p.realRoots.filter (· ≤ (t : ℝ)) : Finset ℝ) := by
    ext x
    rw [Finset.coe_filter, Set.mem_ofPred_eq, Set.mem_ofPred_eq, mem_realRoots separable.ne_zero]
    refine and_congr_right fun root => ⟨le_of_lt, fun below => lt_of_le_of_ne below ?_⟩
    rintro rfl
    exact other ((eval_toReal_eq_zero_iff t).mp root)
  rw [rootsBelow_eq separable, same, Set.encard_coe_eq_coe_finsetCard]

/-- The roots of `x ^ 3 - 2 * x`: the middle of the range of all roots is a rational root, and a
gap around it is found by halving. -/
theorem isolateRoots_exact_middle :
    Squarefree (ofCoeffs [0, -2, 0, 1]).toPolynomial ∧
      (ofCoeffs [0, -2, 0, 1]).isConstant = false ∧
      (ofCoeffs [0, -2, 0, 1]).isolateRoots = [⟨-3, -3 / 4⟩, ⟨0, 0⟩, ⟨3 / 4, 3⟩] ∧
      (ofCoeffs [0, -2, 0, 1]).IsolatesAll [⟨-3, -3 / 4⟩, ⟨0, 0⟩, ⟨3 / 4, 3⟩] ∧
      (ofCoeffs [0, -2, 0, 1]).eval 1 ≠ 0 ∧
      {x : ℝ | (ofCoeffs [0, -2, 0, 1]).toReal.eval x = 0 ∧ x < ((1 : ℚ) : ℝ)}.encard = 2 := by
  have varies : (ofCoeffs [0, -2, 0, 1]).isConstant = false := by decide +kernel
  have ranges : (ofCoeffs [0, -2, 0, 1]).isolateRoots = [⟨-3, -3 / 4⟩, ⟨0, 0⟩, ⟨3 / 4, 3⟩] := by
    decide +kernel
  have other : (ofCoeffs [0, -2, 0, 1]).eval 1 ≠ 0 := by decide +kernel
  have count : (ofCoeffs [0, -2, 0, 1]).rootsBelow 1 = 2 := by decide +kernel
  obtain ⟨-, all, below⟩ := isolateRoots_exact squarefree_cube_sub varies
  have two := below 1 other
  rw [count] at two
  rw [ranges] at all
  exact ⟨squarefree_cube_sub, varies, ranges, all, other, two.symm⟩

end Stratagem.Poly
