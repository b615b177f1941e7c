import Stratagem.Proofs.Soundness.Division
import Stratagem.Rewriting.Power

/-!
# Powers keep their value

A power with a rational literal as exponent keeps its value where it is defined. Powers of literals
are powers of roots, computed exactly; powers of powers are merged, negative powers are written as
reciprocals, and a power with a fraction as exponent is a power of a root. The least signed word is
no exponent here: numerators are counted in words of half the size, where it is zero.
-/
namespace Stratagem

open Arithmetic Terms Rule

namespace Semantics

variable {M : Semantics} {s : Store} {config : SimplifierConfig} {baseInt isInt : Bool} {x : ℝ}
  {y : ℚ} {value : Numeral}

/-- A power that is found among the rationals is the power. -/
theorem rationalPower_eq_of_found {r power : ℚ} (sign : Even y.den → 0 ≤ r)
    (found : rationalPower? r y.num y.den = some power) : (power : ℝ) = rationalPower r y := by
  obtain ⟨root, same, raised⟩ : ∃ root : ℚ, realRoot y.den r = root ∧
      Rational.power? root y.num = some power := by
    unfold rationalPower? at found
    dsimp only at found
    split at found
    · next one => exact ⟨r, by rw [one, realRoot_one], found⟩
    · obtain ⟨root, taken, raised⟩ := Option.bind_eq_some_iff.mp found
      obtain ⟨exact, nonneg⟩ := Rational.root?_spec taken
      refine ⟨root, realRoot_eq_of_pow y.den_ne_zero (by exact_mod_cast exact) fun even => ?_,
        raised⟩
      exact_mod_cast nonneg (sign even)
  rw [rationalPower, same, (Rational.power?_spec raised).1, Rat.cast_zpow]

/-- The power of a number that may be written may be written, where a fraction as exponent needs
irrational literals. -/
theorem Writes.rationalPower (known : M.Writes baseInt x)
    (integers : isInt → baseInt ∧ Rational.isIntegral y ∧ 0 ≤ y)
    (fraction : ¬Rational.isIntegral y → M.irrationals) :
    M.Writes isInt (Stratagem.rationalPower x y) where
  whole int := by
    obtain ⟨base, integral, nonneg⟩ := integers int
    obtain ⟨n, rfl⟩ := known.whole base
    rw [Store.rationalPower_of_isIntegral _ integral nonneg]
    exact ⟨n ^ y.num.toNat, by push_cast; rfl⟩
  within := by
    by_cases integral : Rational.isIntegral y
    · refine known.within.imp_left ?_
      rintro ⟨r, rfl⟩
      rw [← num_of_isIntegral integral, rationalPower_intCast]
      exact ⟨r ^ y.num, by push_cast; rfl⟩
    · exact .inr (fraction integral)

/-- Within a degree, a numerator other than the least word is the number of its factors. -/
theorem factorCount_eq {p : ℤ} (word : p ≠ leastWord) (within : isWithin config.maxDegree.toNat p) :
    factorCount p = p.natAbs := by
  have limit := config.maxDegree.toNat_lt
  rw [isWithin, Bool.or_eq_true, decide_eq_true_eq, decide_eq_true_eq] at within
  exact Nat.mod_eq_of_lt ((within.resolve_left word).trans_lt limit)

/-- The power of a numeral is exact. -/
theorem numeralPower_means (known : M.Literal baseInt value x)
    (count : factorCount y.num = y.num.natAbs) :
    (numeralPower value y.num y.den).Ensures config s fun found _ =>
      ∀ n, found = some n → n.Represents (rationalPower x y) := by
  unfold numeralPower
  refine evaluate?_bind_means (fun _ => Numeral.ensures_root known.denotes le_top _)
    (fun root found => ?_) (ensures_pure (by simp))
  obtain ⟨degree, z, denotes, power, sign⟩ := found
  have same : realRoot y.den x = z := realRoot_eq_of_pow degree power fun even =>
    sign (Nat.even_iff.mp even)
  refine evaluate?_bind_means (fun _ => Numeral.ensures_power denotes le_top _)
    (fun powered raised => ?_) (ensures_pure (by simp))
  rw [count] at raised
  rw [rationalPower, same]
  dsimp only
  split
  · next negative =>
    rw [← bind_pure (evaluate? powered.inv)]
    refine evaluate?_bind_means (fun _ => Numeral.ensures_inv raised)
      (fun inverse inverted => ensures_pure ?_) (ensures_pure (by simp))
    rintro _ ⟨⟩
    have magnitude : y.num = -(y.num.natAbs : ℤ) := by omega
    rw [magnitude, zpow_neg, zpow_natCast]
    exact inverted.2.represents
  · next nonneg =>
    refine ensures_pure ?_
    rintro _ ⟨⟩
    have magnitude : y.num = (y.num.natAbs : ℤ) := by omega
    rw [magnitude, zpow_natCast]
    exact raised.represents

/-- The power of a literal keeps its value. -/
theorem foldPower_means (known : M.Literal baseInt value x) (word : y.num ≠ leastWord)
    (integers : isInt → baseInt ∧ Rational.isIntegral y)
    (fraction : ¬Rational.isIntegral y → M.irrationals) :
    (foldPower value y isInt).Ensures config s fun o after =>
      M.Answers after o (.number isInt) (.number (rationalPower x y)) := by
  unfold foldPower
  refine ensures_read_bind ?_
  dsimp only
  split
  · exact answers_failed
  next within =>
  split
  · exact answers_failed
  next nonneg =>
  split
  · exact answers_failed
  next sign =>
  have writes : M.Writes isInt (rationalPower x y) := by
    refine known.writes.rationalPower (fun int => ?_) fraction
    obtain ⟨base, integral⟩ := integers int
    refine ⟨base, integral, Rat.num_nonneg.mp (not_lt.mp fun negative => nonneg ?_)⟩
    simp [negative, int]
  split
  · next power found =>
    obtain ⟨r, rational, found⟩ := Option.bind_eq_some_iff.mp found
    cases value with
    | irrational => cases rational
    | rational q =>
      obtain rfl := Option.some.inj rational
      obtain ⟨rfl, _⟩ := known.rational_eq
      have same := rationalPower_eq_of_found (fun even => not_lt.mp fun negative => sign ?_) found
      · rw [← same] at writes ⊢
        refine answers_build (fun _ => rfl) (mkNumeral_means fun int => ?_)
        obtain ⟨n, whole⟩ := writes.whole int
        obtain rfl : power = n := by exact_mod_cast whole
        simp [Rational.isIntegral]
      · rw [Bool.and_eq_true, decide_eq_true_eq]
        exact ⟨Nat.even_iff.mp even, by simp [Numeral.sign, Rational.sign, Rational.order, negative]⟩
  · split
    · exact answers_failed
    have count : factorCount y.num = y.num.natAbs := by
      rw [Bool.or_eq_true, Bool.not_eq_true', not_or, Bool.not_eq_false] at within
      exact factorCount_eq word within.1
    refine ensures_bind (numeralPower_means known count) fun found after _ exact => ?_
    split
    · next power =>
      exact ensures_bind (mkNumber_means ⟨exact power rfl, writes⟩) fun _ _ _ built =>
        answers_with rfl built
    · exact answers_failed

/-- Repeated factors have repeated values. -/
theorem forall₂_replicate {t : TermId} (known : M.Number s isInt t x) (k : ℕ) :
    List.Forall₂ (M.Number s isInt) (List.replicate k t) (List.replicate k x) := by
  induction k with
  | zero => exact .nil
  | succ k tail => exact .cons known tail

end Semantics

/-- No power has an exponent whose numerator is the least signed word. -/
def Store.AvoidsLeastWord (s : Store) : Prop :=
  ∀ t b e y, t < s.size → s.view t = (.power, [b, e]) → s.numeral? e = some y → y.num ≠ leastWord

/-- If a store that has grown has no such powers, there were none before. -/
theorem Store.AvoidsLeastWord.of_extends {s after : Store} (known : after.AvoidsLeastWord)
    (grown : s.Extends after) : s.AvoidsLeastWord := by
  intro t b e y inside view literal
  have member : e ∈ s.args t := by simp [(Store.view_eq_iff.mp view).2]
  refine known t b e y (grown.lt_size inside) (by rwa [grown.view_eq inside]) ?_
  rwa [Store.numeral?_mono grown ((Store.lt_of_mem_args member).trans inside)]

/-- A store to which a node is added has no such powers if there were none before and the node is
none. -/
theorem Store.AvoidsLeastWord.intern {s : Store} {node : Node} (known : s.AvoidsLeastWord)
    (inside : ∀ a ∈ node.args, a < s.size)
    (word : node.op = .power → ∀ b e y, node.args = [b, e] → s.numeral? e = some y →
      y.num ≠ leastWord) :
    (Terms.intern node).Ensures s fun _ after => after.AvoidsLeastWord := by
  have grown := (Terms.intern node).grows s
  have nodes : ((Terms.intern node).run s).2.nodes = s.nodes ∨
      ((Terms.intern node).run s).2.nodes = s.nodes.push node := by
    unfold Terms.intern
    dsimp only
    split
    · exact .inl rfl
    · split
      · exact .inr rfl
      · exact .inl rfl
  unfold Terms.Ensures
  generalize ((Terms.intern node).run s).2 = after at grown nodes
  intro t b e y there view literal
  by_cases old : t < s.size
  · rw [grown.view_eq old] at view
    have member : e ∈ s.args t := by simp [(Store.view_eq_iff.mp view).2]
    rw [Store.numeral?_mono grown ((Store.lt_of_mem_args member).trans old)] at literal
    exact known t b e y old view literal
  · have last : after.nodes[t]? = some node := by
      unfold Store.size at there old
      obtain same | pushed := nodes
      · exact absurd (same ▸ there) old
      · rw [pushed, Array.size_push] at there
        obtain rfl : t = s.nodes.size := by omega
        rw [pushed]
        exact Array.getElem?_push_size
    have found := Store.node_of_getElem? last
    obtain ⟨head, arguments⟩ := Store.view_eq_iff.mp view
    rw [Store.op, found.2] at head
    rw [Store.args, found.2] at arguments
    rw [Store.numeral?_mono grown (inside e (by simp [arguments]))] at literal
    exact word head b e y arguments literal

namespace Terms

variable {J : Valuation} {L : Language} {s : Store} {b e : TermId} {x : ℝ} {n : ℤ}
  {isInt baseInt : Bool}

/-- Power with a rational literal as exponent. -/
theorem mkRationalPower_means {sort : TermSort} {y : ℚ}
    (base : (J.semantics L).Number s baseInt b x) (sorted : s.Sensible L J e)
    (arith : (s.sortOf e).isArith) (literal : s.numeral? e = some y)
    (join : s.arithJoin [b, e] = sort) (fits : s.PowerFits L sort b e)
    (root : Even y.den → 0 ≤ x) (nonzero : y < 0 → x ≠ 0) :
    (mkApp .power [b, e]).Ensures s fun t after =>
      (J.semantics L).Denotes after t sort (.number (rationalPower x y)) := by
  have value : s.meaning J b = .number x := base.value_eq
  have known : s.PowerDefined J b e := by
    intro q found
    obtain rfl := Option.some.inj (literal.symm.trans found)
    rw [value]
    exact ⟨root, nonzero⟩
  have left : (s.sortOf b).isArith := base.sort_eq ▸ TermSort.isArith_number baseInt
  refine mkApp_evaluates _ (Store.admits_of_powerFits left arith join fits)
    (Store.defined_of_powerDefined known) (by simpa using ⟨base.sorted, sorted⟩) join ?_
  simp only [List.map_cons, List.map_nil, Op.evaluate, Store.meaning_of_numeral? literal, value,
    Value.num_number, realPower_ratCast]

/-- Power with an integer literal as exponent; a negative one stands at a real other than zero,
unless the base is the literal one. -/
theorem mkIntPower_means (base : (J.semantics L).Number s isInt b x) (literal : s.op e = .int n)
    (sorted : s.Sensible L J e)
    (negative : ¬s.isOne b → n < 0 → isInt = false ∧ L.negatives ∧ x ≠ 0) :
    (mkApp .power [b, e]).Ensures s fun t after =>
      (J.semantics L).Number after isInt t (x ^ n) := by
  have int : s.sortOf e = .int := sorted.sortOf_int literal
  have numeral : s.numeral? e = some (n : ℚ) := by
    rw [Store.numeral?, literal]
    rfl
  have arith : (s.sortOf b).isArith := base.sort_eq ▸ TermSort.isArith_number isInt
  have join : s.arithJoin [b, e] = .number isInt :=
    (Store.arithJoin_of_int arith int).trans base.sort_eq
  have fits : s.PowerFits L (.number isInt) b e := by
    by_cases one : s.isOne b
    · exact .inl ⟨one, base.sort_eq⟩
    refine .inr ⟨n, numeral, fun _ => base.sort_eq, fun below => ?_, fun fraction => ?_⟩
    · obtain ⟨rfl, allowed, _⟩ := negative one (by exact_mod_cast below)
      exact ⟨rfl, allowed⟩
    · exact absurd (by simp [Rational.isIntegral]) fraction
  have nonzero (below : (n : ℚ) < 0) : x ≠ 0 := by
    by_cases one : s.isOne b
    · rw [(base.of_numeral? (Store.isOne_iff.mp one)).1]
      simp
    · exact (negative one (by exact_mod_cast below)).2.2
  rw [← rationalPower_intCast]
  exact mkRationalPower_means base sorted (by rw [int]; rfl) numeral join fits (by simp) nonzero

/-- A rational literal of the real sort as such. -/
theorem mkReal_numeral {M : Semantics} (r : ℚ) : (mkReal r).Ensures s fun e after =>
    M.Number after false e r ∧ after.numeral? e = some r := by
  refine (mkReal_means r).and ((intern_node (by simp)).imp fun e after _ found => ?_)
  rw [Store.numeral?, Store.op, found.2]

/-- Root of a number, which is not negative if the degree is even. -/
theorem mkRoot_means {k : ℕ} (base : (J.semantics L).Number s baseInt b x)
    (exponent : (J.semantics L).Number s false e (mkRat 1 k))
    (literal : s.numeral? e = some (mkRat 1 k)) (degree : 1 < k) (allowed : L.irrationals)
    (sign : Even k → 0 ≤ x) :
    (mkApp .power [b, e]).Ensures s fun t after =>
      (J.semantics L).Number after false t (realRoot k x) := by
  have fraction : (mkRat 1 k).num = 1 ∧ (mkRat 1 k).den = k := by
    rw [← Rat.normalize_eq_mkRat (by omega : k ≠ 0)]
    simp [Rat.normalize_eq]
  have real : s.sortOf e = .real := exponent.sort_eq
  have join : s.arithJoin [b, e] = .real := by
    simp [Store.arithJoin, Store.isInt, real]
  have other : ¬Rational.isIntegral (mkRat 1 k) := by
    rw [Rational.isIntegral, fraction.2]
    simpa using degree.ne'
  have positive : ¬mkRat 1 k < 0 := by
    rw [not_lt, ← Rat.num_nonneg, fraction.1]
    exact zero_le_one
  have fits : s.PowerFits L .real b e :=
    .inr ⟨_, literal, fun whole => absurd whole other, fun below => absurd below positive,
      fun _ => allowed⟩
  have power : rationalPower x (mkRat 1 k) = realRoot k x := by
    rw [rationalPower, fraction.1, fraction.2, zpow_one]
  rw [← power]
  exact mkRationalPower_means base exponent.sorted (by rw [real]; rfl) literal join fits
    (by rwa [fraction.2]) fun below => absurd below positive

end Terms

namespace Valuation

open Semantics

variable {J : Valuation} {L : Language} {s : Store} {config : SimplifierConfig} {t b e : TermId}
  {sort : TermSort} {v : Value} {x : ℝ} {y : ℚ} {n : ℤ} {isInt baseInt : Bool}

/-- A number raised to a rational, in a language and defined: what a power with a literal as
exponent says about its base, unless that is the literal one. -/
structure Raises (J : Valuation) (L : Language) (s : Store) (isInt baseInt : Bool) (b : TermId)
    (x : ℝ) (y : ℚ) : Prop where
  /-- The base is a number. -/
  base : (J.semantics L).Number s baseInt b x
  /-- An integral exponent leaves the sort of the base. -/
  integral : Rational.isIntegral y → baseInt = isInt
  /-- Integers are powers of integers. -/
  integers : isInt → baseInt ∧ Rational.isIntegral y
  /-- A negative exponent stands at a real other than zero. -/
  negative : ¬s.isOne b → y < 0 → isInt = false ∧ L.negatives ∧ x ≠ 0
  /-- A fraction as exponent needs irrational literals. -/
  fraction : ¬s.isOne b → ¬Rational.isIntegral y → L.irrationals
  /-- An even root is taken of a number that is not negative. -/
  even : Even y.den → 0 ≤ x

/-- A power with a literal as exponent raises its base. -/
theorem raises_of_view (known : (J.semantics L).Denotes s t sort v)
    (view : s.view t = (.power, [b, e])) (literal : s.numeral? e = some y) :
    ∃ isInt baseInt x, sort = .number isInt ∧ v = .number (rationalPower x y) ∧
      Raises J L s isInt baseInt b x y := by
  obtain ⟨admits, defines, sensible, value⟩ := evaluate_of_view known view
  obtain ⟨arith, _, join⟩ := admits.sorts
  have fits := admits.power b e rfl rfl
  have defined := defines.power b e rfl rfl y literal
  obtain ⟨baseInt, same⟩ := TermSort.exists_eq_number arith
  obtain ⟨isInt, rfl⟩ := TermSort.exists_eq_number (join ▸ Store.isArith_arithJoin s [b, e])
  have base : (J.semantics L).Number s baseInt b _ := .self (sensible b (by simp)) same
  have raised : ¬s.isOne b → s.ExponentFits L (.number isInt) b y := by
    intro other
    obtain ⟨q, found, raised⟩ := fits.resolve_left fun one => other one.1
    obtain rfl := Option.some.inj (literal.symm.trans found)
    exact raised
  refine ⟨isInt, baseInt, _, rfl, ?_, base, fun whole => ?_, fun int => ?_, fun other below => ?_,
    fun other => (raised other).fraction, defined.1⟩
  · rw [value, List.map_cons, List.map_singleton, Op.evaluate, Store.meaning_of_numeral? literal,
      Value.num_number, realPower_ratCast]
    rfl
  · have kept := (fits.sortOf_eq literal whole).symm.trans same
    cases isInt <;> cases baseInt <;> first | rfl | cases kept
  · subst int
    have both := Store.arithJoin_eq_int_iff.mp join.symm
    have int : s.sortOf b = .int := both b (by simp)
    rw [int] at same
    refine ⟨?_, (sensible e (by simp)).isIntegral (both e (by simp)) literal⟩
    cases baseInt <;> first | rfl | cases same
  · obtain ⟨real, allowed⟩ := (raised other).negative below
    refine ⟨?_, allowed, defined.2 below⟩
    cases isInt <;> first | rfl | cases real

/-- An integer power of a term keeps its value. -/
theorem reduceIntPower_means (known : Raises J L s isInt baseInt b x n) (other : ¬s.isOne b)
    (nonzero : n ≠ 0) :
    (reduceIntPower t b n).Ensures config s fun o after =>
      (J.semantics L).Answers after o (.number isInt) (.number (x ^ n)) := by
  obtain rfl := known.integral (by simp [Rational.isIntegral])
  have base := known.base
  have negative : n < 0 → baseInt = false ∧ L.negatives ∧ x ≠ 0 := fun below =>
    known.negative other (by exact_mod_cast below)
  unfold reduceIntPower
  refine ensures_peek_bind ?_
  split
  · next u j inner =>
    -- The power of a power has the product of the exponents.
    obtain ⟨e, view, exponent⟩ : ∃ e, s.view b = (.power, [u, e]) ∧
        reduceIntPower.intPower? s e = some j := by
      split at inner
      · next u' e view =>
        obtain ⟨j', found, same⟩ := Option.map_eq_some_iff.mp inner
        obtain ⟨rfl, rfl⟩ := Prod.mk.inj same
        exact ⟨e, view, found⟩
      · cases inner
    obtain ⟨r, literal, whole⟩ := Option.bind_eq_some_iff.mp exponent
    split at whole
    case isFalse => cases whole
    next integral =>
    obtain rfl := Option.some.inj whole
    obtain ⟨isInt', baseInt', z, sort, value, inside⟩ := raises_of_view base view literal
    obtain rfl : isInt' = baseInt := by cases isInt' <;> cases baseInt <;> first | rfl | cases sort
    obtain rfl := inside.integral integral
    obtain rfl := Value.number.inj value
    obtain ⟨j, rfl⟩ : ∃ j : ℤ, r = j := ⟨r.num, (num_of_isIntegral integral).symm⟩
    rw [rationalPower_intCast] at negative ⊢
    rw [Rat.num_intCast]
    refine ensures_bind (ensures_lift ((mkInt_means (M := J.semantics L) _).and (mkInt_op _)))
      fun e middle grown literal => ?_
    refine answers_build (fun _ => rfl) ((mkIntPower_means (inside.base.mono grown) literal.2
      literal.1.sorted fun other below => ?_).imp fun _ _ _ built => built.congr (zpow_mul ..))
    rw [Store.isOne, Store.numeral?_mono grown inside.base.inside] at other
    by_cases first : j < 0
    · exact inside.negative other (by exact_mod_cast first)
    · have second : n < 0 := by
        by_contra nonneg
        exact absurd below (not_lt.mpr (mul_nonneg (not_lt.mp first) (not_lt.mp nonneg)))
      obtain ⟨real, allowed, apart⟩ := negative second
      refine ⟨real, allowed, ?_⟩
      rintro rfl
      exact apart (zero_zpow _ (by rintro rfl; simp at below))
  · split
    · next below =>
      obtain ⟨real, allowed, apart⟩ := negative below
      subst real
      refine ensures_peek_bind ?_
      split
      · exact answers_failed
      obtain ⟨k, rfl⟩ : ∃ k : ℕ, n = -k := ⟨n.natAbs, by omega⟩
      rw [neg_neg]
      refine ensures_bind (ensures_lift (mkReal_means (M := J.semantics L) 1))
        fun one first grown unit => ?_
      refine ensures_bind (ensures_lift ((mkInt_means (M := J.semantics L) _).and (mkInt_op _)))
        fun e second more literal => ?_
      have all := grown.trans more
      refine ensures_bind (ensures_lift (mkPower_means (base.mono all) (by omega) literal.2
        literal.1.sorted)) fun p third most power => ?_
      have divisor : (third.meaning J p).num ≠ 0 := by
        rw [show third.meaning J p = _ from power.value_eq]
        exact pow_ne_zero k apart
      refine answers_build (fun _ => rfl) ((mkDiv_means (unit.mono (more.trans most)) power
        (.inl divisor)).imp fun _ _ _ built => built.congr ?_)
      rw [divide, if_neg (pow_ne_zero k apart), Rat.cast_one, one_div, zpow_neg, zpow_natCast]
    · next nonneg =>
      obtain ⟨k, rfl⟩ : ∃ k : ℕ, n = k := ⟨n.natAbs, by omega⟩
      refine ensures_read_bind (ensures_peek_bind ?_)
      split
      · refine answers_build (fun _ => rfl) ((mkMul_means (by simpa using nonzero)
          (forall₂_replicate base k)).imp fun _ _ _ built => built.congr ?_)
        rw [List.prod_replicate, zpow_natCast]
      · exact answers_failed

/-- A fractional power of a term keeps its value. -/
theorem reduceFractionPower_means (known : Raises J L s isInt baseInt b x y)
    (other : ¬s.isOne b) (fraction : ¬Rational.isIntegral y) :
    (reduceFractionPower b y).Ensures config s fun o after =>
      (J.semantics L).Answers after o (.number isInt) (.number (rationalPower x y)) := by
  have real : isInt = false := by
    cases isInt with
    | false => rfl
    | true => exact absurd (known.integers rfl).2 fraction
  subst real
  have degree : 1 < y.den := by
    have := y.den_pos
    have other : y.den ≠ 1 := fun one => fraction (by simp [Rational.isIntegral, one])
    omega
  unfold reduceFractionPower
  split
  · exact answers_failed
  refine ensures_bind (ensures_lift (mkReal_numeral (M := J.semantics L) (mkRat 1 y.den)))
    fun e first grown literal => ?_
  refine ensures_bind (ensures_lift (mkRoot_means (known.base.mono grown) literal.1 literal.2 degree
    (known.fraction other fraction) known.even)) fun root second more taken => ?_
  refine ensures_bind (ensures_lift ((mkInt_means (M := J.semantics L) _).and (mkInt_op _)))
    fun i third most literal => ?_
  refine answers_build (fun _ => rfl) (mkIntPower_means (taken.mono most) literal.2
    literal.1.sorted fun _ below => ?_)
  obtain ⟨same, allowed, apart⟩ := known.negative other (Rat.num_neg.mp below)
  exact ⟨same, allowed, realRoot_ne_zero apart _⟩

/-- A power keeps its value where it is defined. -/
theorem reducePower_means (known : (J.semantics L).Denotes s t sort v)
    (view : s.view t = (.power, [b, e])) (word : L.negatives → s.AvoidsLeastWord) :
    (reducePower t b e).Ensures config s fun o after => (J.semantics L).Answers after o sort v := by
  unfold reducePower
  refine ensures_peek_bind (ensures_peek_bind ?_)
  split
  · next one =>
    obtain ⟨admits, _, _, _⟩ := evaluate_of_view known view
    obtain ⟨_, _, join⟩ := admits.sorts
    obtain ⟨isInt, rfl⟩ := TermSort.exists_eq_number (join ▸ Store.isArith_arithJoin s [b, e])
    have same : s.isInt t = isInt := by
      rw [Store.isInt, known.sort_eq]
      cases isInt <;> rfl
    have value : v = .number 1 := known.value_eq.symm.trans (Store.meaning_of_isOne view one)
    rw [same, value]
    exact answers_build (fun _ => rfl) ((mkNumeral_means fun _ => Rational.isIntegral_one).imp
      fun _ _ _ built => built.congr (by simp))
  next other =>
  refine ensures_peek_bind ?_
  split
  · exact answers_failed
  next y literal =>
  obtain ⟨isInt, baseInt, x, rfl, rfl, raises⟩ := raises_of_view known view literal
  have least : y.num ≠ leastWord := by
    intro same
    have below : y < 0 := Rat.num_neg.mp (by rw [same]; decide)
    exact word (raises.negative other below).2.1 t b e y known.inside view literal same
  have same : s.isInt t = isInt := by
    rw [Store.isInt, known.sort_eq]
    cases isInt <;> rfl
  rw [same]
  refine ensures_peek_bind ?_
  split
  · next one =>
    subst one
    obtain rfl := raises.integral (by decide)
    exact answers_with rfl (raises.base.congr (by simp [rationalPower]))
  split
  · next zero =>
    subst zero
    split
    · exact answers_failed
    · exact answers_build (fun _ => rfl) ((mkNumeral_means fun _ => Rational.isIntegral_one).imp
        fun _ _ _ built => built.congr (by simp [rationalPower]))
  next nonzero =>
  split
  · next zero =>
    obtain ⟨base, positive⟩ := Bool.and_eq_true_iff.mp zero
    obtain ⟨rfl, _⟩ := raises.base.of_numeral? (beq_iff_eq.mp base)
    have above : y.num ≠ 0 := Rat.num_ne_zero.mpr nonzero
    exact answers_build (fun _ => rfl) ((mkNumeral_means fun _ => Rational.isIntegral_zero).imp
      fun _ _ _ built => built.congr (by simp [rationalPower, zero_zpow _ above]))
  refine numeralValue?_bind_means raises.base (fun value _ found => ?_) fun _ => ?_
  · exact foldPower_means found least raises.integers (raises.fraction other)
  · dsimp only
    split
    · next integral =>
      obtain ⟨n, rfl⟩ : ∃ n : ℤ, y = n := ⟨y.num, (num_of_isIntegral integral).symm⟩
      rw [rationalPower_intCast, Rat.num_intCast]
      exact reduceIntPower_means raises other (by exact_mod_cast nonzero)
    · next fraction => exact reduceFractionPower_means raises other fraction

end Valuation
end Stratagem
