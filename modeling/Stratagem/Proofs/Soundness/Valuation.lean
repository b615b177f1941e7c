import Stratagem.Proofs.Rewriting.Numeral
import Stratagem.Proofs.Term.Valuation

/-!
# The semantics of arithmetic

The terms of a language that are well-sorted and defined under a valuation have a semantics.
Besides what every semantics has, the operators of arithmetic beyond the common ones can be built
and taken apart.
-/
namespace Stratagem

open Store (Extends)

namespace Store

variable {L : Language} {J : Valuation} {s after : Store} {t a b e : TermId}
  {sort : TermSort} {op : Op} {args : List TermId} {r : ℚ}

/-- The value of an application of a common head is of its sort if the values of the arguments are
of theirs. -/
theorem hasSort_interpret {Γ : Signature} {v : TermId → Value} (common : op.isCommon)
    (fits : s.Fits Γ sort op args) (typed : ∀ a ∈ args, (v a).HasSort (s.sortOf a)) :
    (op.interpret (args.map v)).HasSort sort := by
  have integral : ∀ a ∈ args, s.sortOf a = .int → (v a).num ∈ Value.integers :=
    fun a member same => Value.num_mem_integers (same ▸ typed a member)
  revert fits
  unfold Fits
  split <;> intro fits
  case h_2 | h_21 => cases common
  case h_3 n =>
    subst fits
    exact ⟨n, rfl⟩
  case h_10 c a b =>
    obtain ⟨_, rfl, same⟩ := fits
    simp only [List.map_cons, List.map_nil, Op.interpret]
    split_ifs
    · exact typed a (by simp)
    · exact same ▸ typed b (by simp)
  case h_17 a =>
    obtain ⟨arith, same⟩ := fits
    refine (Value.hasSort_number arith).mpr fun int => neg_mem ?_
    exact integral a (by simp) (same.trans int)
  case h_18 a b =>
    obtain ⟨arith, first, second⟩ := fits
    refine (Value.hasSort_number arith).mpr fun int => sub_mem ?_ ?_
    · exact integral a (by simp) (first.trans int)
    · exact integral b (by simp) (second.trans int)
  case h_19 =>
    obtain ⟨arith, _, same⟩ := fits
    refine (Value.hasSort_number arith).mpr fun int => list_sum_mem fun x member => ?_
    obtain ⟨_, ⟨a, inside, rfl⟩, rfl⟩ := by simpa only [List.mem_map] using member
    exact integral a inside ((same a inside).trans int)
  case h_20 =>
    obtain ⟨arith, _, same⟩ := fits
    refine (Value.hasSort_number arith).mpr fun int => list_prod_mem fun x member => ?_
    obtain ⟨_, ⟨a, inside, rfl⟩, rfl⟩ := by simpa only [List.mem_map] using member
    exact integral a inside ((same a inside).trans int)
  -- The other heads are of the boolean or the real sort, of which every value is one.
  all_goals first | exact fits.elim | (obtain ⟨rfl, _⟩ := fits; trivial)

/-- The literal one is a rational literal with the value one. -/
theorem isOne_iff : s.isOne t = true ↔ s.numeral? t = some 1 := beq_iff_eq

/-- The value of a rational literal. -/
theorem meaning_of_numeral? (literal : s.numeral? t = some r) :
    s.meaning J t = .number r := by
  rw [meaning_eq]
  unfold numeral? at literal
  split at literal
  case h_3 => cases literal
  all_goals
    next head =>
      obtain rfl := Option.some.inj literal
      rw [head]
      simp [Op.evaluate, Op.function?, Op.interpret, Rational.ofInt]

/-- The value of a power with a rational literal as exponent. -/
theorem meaning_of_power (view : s.view t = (.power, [b, e])) (literal : s.numeral? e = some r) :
    s.meaning J t = .number (rationalPower (s.meaning J b).num r) := by
  obtain ⟨head, arguments⟩ := view_eq_iff.mp view
  rw [meaning_eq, head, arguments, ← realPower_ratCast]
  simp [Op.evaluate, meaning_of_numeral? literal]

/-- The value of a power of the literal one. -/
theorem meaning_of_isOne (view : s.view t = (.power, [b, e])) (one : s.isOne b) :
    s.meaning J t = .number 1 := by
  obtain ⟨head, arguments⟩ := view_eq_iff.mp view
  rw [meaning_eq, head, arguments]
  simp [Op.evaluate, meaning_of_numeral? (isOne_iff.mp one)]

/-- A power with an integral exponent that is positive is an iterated product. -/
theorem rationalPower_of_isIntegral (x : ℝ) (integral : Rational.isIntegral r) (positive : 0 ≤ r) :
    rationalPower x r = x ^ r.num.toNat := by
  have same := Terms.num_of_isIntegral integral
  have nonneg : 0 ≤ r.num := Rat.num_nonneg.mpr positive
  rw [← same, rationalPower_intCast, Rat.num_intCast]
  conv_lhs => rw [← Int.toNat_of_nonneg nonneg, zpow_natCast]

/-- A power of the integer sort has an integral value. -/
theorem power_mem_integers (known : s.PowerFits L .int b e) (view : s.view t = (.power, [b, e]))
    (base : (s.meaning J b).num ∈ Value.integers)
    (literals : ∀ r, s.numeral? e = some r → Rational.isIntegral r) :
    (s.meaning J t).num ∈ Value.integers := by
  obtain ⟨one, _⟩ | ⟨r, literal, fits⟩ := known
  · rw [meaning_of_isOne view one]
    exact one_mem _
  · have nonneg : 0 ≤ r := by
      by_contra negative
      exact absurd (fits.negative (not_le.mp negative)).1 (by simp)
    rw [meaning_of_power view literal, Value.num_number,
      rationalPower_of_isIntegral _ (literals r literal) nonneg]
    exact pow_mem base _

/-- A literal of the integer sort is integral. -/
theorem Sensible.isIntegral (known : s.Sensible L J t) (int : s.sortOf t = .int)
    (literal : s.numeral? t = some r) : Rational.isIntegral r := by
  have sorts := known.admits.sorts
  unfold numeral? at literal
  split at literal
  case h_1 n _ =>
    obtain rfl := Option.some.inj literal
    simp [Rational.isIntegral, Rational.ofInt]
  case h_2 q head =>
    rw [head, int] at sorts
    have fits := sorts.of_isCommon rfl
    cases arguments : s.args t <;> rw [arguments] at fits <;> cases fits
  case h_3 => cases literal

/-- A sensible term is of a sort of truth values or numbers, and its value is of that sort. -/
theorem Sensible.hasSort (known : s.Sensible L J t) :
    (s.sortOf t).isScalar ∧ (s.meaning J t).HasSort (s.sortOf t) := by
  induction known with
  | @intro t here args typed =>
    have admits := here.1.2
    have value := meaning_eq J s t
    generalize term : s.sortOf t = sort at *
    generalize head : s.op t = op at *
    generalize arguments : s.args t = terms at *
    by_cases common : op.isCommon
    · have fits := admits.sorts.of_isCommon common
      refine ⟨?_, ?_⟩
      · have below := fun a member => (typed a member).1
        revert fits below
        unfold Fits TermSort.isScalar
        split <;> intro fits below <;> grind [TermSort.isArith]
      · rw [value, Op.evaluate_of_isCommon common]
        exact hasSort_interpret common fits fun a member => (typed a member).2
    · have sorts := admits.sorts
      have power := admits.power
      revert sorts
      unfold SortsFit
      split <;> intro sorts
      case h_1 name =>
        obtain rfl | arith := sorts
        · exact ⟨.inl rfl, by rw [value]; trivial⟩
        · refine ⟨.inr arith, ?_⟩
          rw [value]
          cases sort <;> simp_all [TermSort.isArith, Op.evaluate, Assignment.constant,
            Value.HasSort]
      case h_8 b e =>
        obtain ⟨_, _, rfl⟩ := sorts
        have view : s.view t = (.power, [b, e]) := view_eq_iff.mpr ⟨head, arguments⟩
        have shape : s.meaning J t = .number (s.meaning J t).num := by rw [value]; rfl
        refine ⟨.inr (isArith_arithJoin s _), ?_⟩
        rw [shape, Value.hasSort_number (isArith_arithJoin s _)]
        intro int
        have both := arithJoin_eq_int_iff.mp int
        refine power_mem_integers (int ▸ power b e rfl rfl) view ?_ fun r => ?_
        · exact Value.num_mem_integers (both b (by simp) ▸ (typed b (by simp)).2)
        · exact Sensible.isIntegral (args e (by simp)) (both e (by simp))
      case h_11 =>
        obtain ⟨plain, _⟩ | ⟨function, rfl, a, rfl, _⟩ := sorts
        · exact absurd plain common
        · obtain ⟨f, found⟩ := Option.isSome_iff_exists.mp function
          refine ⟨.inr rfl, ?_⟩
          rw [value, List.map_singleton, Op.evaluate_of_function? found]
          trivial
      case h_2 | h_3 =>
        subst sorts
        exact ⟨.inr rfl, by rw [value]; trivial⟩
      case h_4 | h_10 =>
        obtain ⟨rfl, _⟩ := sorts
        exact ⟨by first | exact .inr rfl | exact .inl rfl, by rw [value]; trivial⟩
      -- Quotients, remainders and integral parts are integers.
      all_goals
        obtain ⟨rfl, _⟩ := sorts
        exact ⟨.inr rfl, by rw [value]; exact ⟨_, rfl⟩⟩

/-- The value of a natural literal. -/
theorem numeral?_of_natCast {k : ℕ} (literal : s.op e = .int k) : s.numeral? e = some (k : ℚ) := by
  rw [numeral?, literal]
  simp [Rational.ofInt]

/-- A base may be raised to a natural number. -/
theorem ExponentFits.of_natCast {k : ℕ} (same : s.sortOf b = sort) : s.ExponentFits L sort b k where
  integral _ := same
  negative below := absurd below (not_lt.mpr k.cast_nonneg)
  fraction other := absurd (by simp [Rational.isIntegral]) other

/-- A power with an integral exponent has the sort of its base. -/
theorem PowerFits.sortOf_eq (known : s.PowerFits L sort b e) (literal : s.numeral? e = some r)
    (integral : Rational.isIntegral r) : s.sortOf b = sort := by
  obtain ⟨_, same⟩ | ⟨q, found, fits⟩ := known
  · exact same
  · obtain rfl := Option.some.inj (literal.symm.trans found)
    exact fits.integral integral

/-- An integer literal is of the integer sort. -/
theorem Sensible.sortOf_int {n : ℤ} (known : s.Sensible L J e) (literal : s.op e = .int n) :
    s.sortOf e = .int := by
  have fits := known.admits.sorts
  rw [literal] at fits
  have fits := fits.of_isCommon rfl
  cases inner : s.args e with
  | nil => rwa [inner] at fits
  | cons => rw [inner] at fits; exact fits.elim

/-- A power with an integral exponent that is not negative is an iterated product. -/
theorem Sensible.power (known : s.Sensible L J t) (view : s.view t = (.power, [b, e]))
    (literal : s.numeral? e = some r) (integral : Rational.isIntegral r) (nonneg : 0 ≤ r) :
    s.Sensible L J b ∧ (s.sortOf b).isArith ∧ s.sortOf t = s.sortOf b ∧
      s.meaning J t = .number ((s.meaning J b).num ^ r.num.toNat) := by
  obtain ⟨head, arguments⟩ := view_eq_iff.mp view
  have fits := known.admits.power b e head arguments
  have sorts := known.admits.sorts
  rw [head, arguments] at sorts
  refine ⟨known.of_mem_args (by simp [arguments]), sorts.1,
    (fits.sortOf_eq literal integral).symm, ?_⟩
  rw [meaning_of_power view literal, rationalPower_of_isIntegral _ integral nonneg]

/-- A power with a natural number as exponent has the sort of its base. -/
theorem arithJoin_of_int (arith : (s.sortOf b).isArith) (int : s.sortOf e = .int) :
    s.arithJoin [b, e] = s.sortOf b := by
  obtain ⟨isInt, sort⟩ := TermSort.exists_eq_number arith
  cases isInt with
  | true =>
    have whole : s.sortOf b = .int := sort
    rw [arithJoin_eq_int_iff.mpr (by simp [int, whole]), whole]
  | false =>
    have real : s.sortOf b = .real := sort
    simp [arithJoin, Store.isInt, real]

/-- A sensible number may be raised to a natural number. -/
theorem Sensible.of_power {k : ℕ} (inside : t < s.size) (view : s.view t = (.power, [b, e]))
    (arith : (s.sortOf b).isArith) (same : s.sortOf t = s.sortOf b) (literal : s.op e = .int k)
    (base : s.Sensible L J b) (exponent : s.Sensible L J e) : s.Sensible L J t := by
  obtain ⟨head, arguments⟩ := view_eq_iff.mp view
  have int := exponent.sortOf_int literal
  have node : s.node t = ⟨.power, [b, e], s.sortOf b⟩ := by
    rw [← head, ← arguments, ← same]
    rfl
  have fits : s.PowerFits L (s.sortOf b) b e :=
    .inr ⟨k, numeral?_of_natCast literal, .of_natCast rfl⟩
  have known : s.PowerDefined J b e := by
    intro r found
    obtain rfl := Option.some.inj ((numeral?_of_natCast literal).symm.trans found)
    exact ⟨by simp, fun negative => absurd negative (not_lt.mpr k.cast_nonneg)⟩
  exact .of_node inside node
    (admits_of_powerFits arith (by rw [int]; rfl) (arithJoin_of_int arith int) fits)
    (defined_of_powerDefined known) (by simp [base, exponent])

/-- An irrational literal stands where it may, and denotes its number. -/
theorem Sensible.irrational {a : Algebraic} (known : s.Sensible L J t)
    (head : s.op t = .algebraic a) : L.irrationals ∧ (Numeral.irrational a).WellFormed ∧
      s.sortOf t = .real ∧ s.meaning J t = .number (Numeral.irrational a).value := by
  obtain ⟨allowed, wellFormed⟩ := known.admits.irrational a head
  have sorts := known.admits.sorts
  rw [head] at sorts
  cases arguments : s.args t with
  | cons =>
    rw [arguments] at sorts
    obtain ⟨common, _⟩ | ⟨function, _⟩ := sorts
    · cases common
    · cases function
  | nil =>
    rw [arguments] at sorts
    refine ⟨allowed, wellFormed, sorts, ?_⟩
    rw [meaning_eq, head]
    rfl

/-- A well-formed irrational literal is sensible where it may stand. -/
theorem Sensible.of_irrational {a : Algebraic} (allowed : L.irrationals)
    (wellFormed : (Numeral.irrational a).WellFormed) (inside : t < s.size)
    (node : s.node t = ⟨.algebraic a, [], .real⟩) : s.Sensible L J t := by
  refine .of_node inside node ?_ (defined_of_isTotal rfl) (by simp)
  refine ⟨rfl, by simp [Op.isEquation], ?_, by simp [Op.function?], by simp⟩
  rintro _ ⟨⟩
  exact ⟨allowed, wellFormed⟩

/-- The node of a literal. -/
theorem Sensible.node_of_isValue (known : s.Sensible L J t) (literal : s.isValue t) :
    (∃ b, s.node t = ⟨.bool b, [], .bool⟩) ∨ (∃ n, s.node t = ⟨.int n, [], .int⟩) ∨
      (∃ r, s.node t = ⟨.real r, [], .real⟩) ∨
        ∃ a, L.irrationals ∧ s.node t = ⟨.algebraic a, [], .real⟩ := by
  have node : s.node t = ⟨s.op t, s.args t, s.sortOf t⟩ := rfl
  have sorts := known.admits.sorts
  rw [node]
  revert sorts
  cases head : s.op t
  case bool | int | real | bitVec =>
    cases s.args t <;> simp [SortsFit, Fits, Op.isCommon, Op.function?]
  case algebraic =>
    have allowed := (known.irrational head).1
    cases s.args t <;> simp [SortsFit, Op.isCommon, Op.function?, allowed]
  all_goals
    rw [isValue, head] at literal
    cases literal

/-- A literal is a truth value or a numeral with its value. -/
theorem Sensible.literal_cases (known : s.Sensible L J t) (literal : s.isValue t) :
    (∃ b, s.node t = ⟨.bool b, [], .bool⟩ ∧ s.meaning J t = .truth (b = true)) ∨
      ∃ x, s.exactNumeral? t = some x ∧ s.meaning J t = .number x.value := by
  have value := meaning_eq J s t
  unfold exactNumeral?
  unfold op args sortOf at value
  unfold op
  obtain ⟨b, node⟩ | ⟨n, node⟩ | ⟨r, node⟩ | ⟨a, _, node⟩ := known.node_of_isValue literal <;>
    simp [value, node, Op.evaluate, Op.function?, Op.interpret, Numeral.value, Rational.ofInt]

end Store

namespace Valuation

open Store

/-- The semantics of the terms of a language that a valuation defines. -/
noncomputable def semantics (J : Valuation) (L : Language) : Semantics where
  Sorted s t := s.Sensible L J t
  value s t := s.meaning J t
  realCasts := False
  equations := L.equations
  irrationals := L.irrationals
  inside known := known.inside
  mono known grown := known.mono grown
  value_mono known grown := grown.meaning_eq known.inside
  hasSort known _ := known.hasSort.2
  fits known common := known.admits.sorts.of_isCommon common
  equates known equation := known.admits.equations (.inl equation)
  of_mem_args known _ member := known.of_mem_args member
  value_eq _ common := by rw [meaning_eq, Op.evaluate_of_isCommon common]
  build inside common fits args allowed :=
    .intro ⟨⟨inside, admits_of_isCommon common fits allowed⟩,
      defined_of_isTotal (Op.isTotal_of_isCommon common)⟩ args
  power known view literal integral positive := known.power view literal integral positive.le
  build_power inside view arith same literal _ base exponent :=
    .of_power inside view arith same literal base exponent
  irrational known head := known.irrational head
  build_irrational allowed wellFormed inside node := .of_irrational allowed wellFormed inside node

variable {J : Valuation} {L : Language} {s : Store} {t a b : TermId} {sort : TermSort}
  {op : Op} {args : List TermId} {v : Value} {x y : ℝ} {m n : ℤ}

/-- Different literals of one sort have different values if numerals do. -/
theorem separates_of_numerals (apart : ∀ a b x y, s.Sensible L J a → s.Sensible L J b →
    s.exactNumeral? a = some x → s.exactNumeral? b = some y → s.sortOf a = s.sortOf b →
      x.value = y.value → a = b) : (J.semantics L).Separates s := by
  intro a b left right first second sorts different same
  change s.meaning J a = s.meaning J b at same
  refine different ?_
  obtain ⟨p, node, value⟩ | ⟨x, numeral, value⟩ := Sensible.literal_cases left first
  all_goals obtain ⟨q, node', value'⟩ | ⟨y, numeral', value'⟩ :=
    Sensible.literal_cases right second
  · rw [value, value', Value.truth.injEq] at same
    have equal : p = q := by simpa using same
    exact eq_of_node_eq left.inside right.inside (by rw [node, node', equal])
  · simp [value, value'] at same
  · simp [value, value'] at same
  · rw [value, value', Value.number.injEq] at same
    exact apart a b x y left right numeral numeral' sorts same

/-- Where there are no irrational literals, different literals of one sort have different values. -/
theorem separates (rational : ¬L.irrationals) (s : Store) : (J.semantics L).Separates s := by
  have known {t : TermId} {x : Numeral} (sensible : s.Sensible L J t)
      (numeral : s.exactNumeral? t = some x) :
      (∃ n : ℤ, s.node t = ⟨.int n, [], .int⟩ ∧ x.value = n) ∨
        ∃ r : ℚ, s.node t = ⟨.real r, [], .real⟩ ∧ x.value = r := by
    have literal : s.isValue t := by
      revert numeral
      unfold exactNumeral? Store.isValue
      cases s.op t <;> simp [Op.isValue]
    obtain ⟨_, node⟩ | ⟨n, node⟩ | ⟨r, node⟩ | ⟨_, allowed, _⟩ := sensible.node_of_isValue literal
    · simp [exactNumeral?, Store.op, node] at numeral
    · rw [exactNumeral?, Store.op, node] at numeral
      exact .inl ⟨n, node, by simp [← Option.some.inj numeral, Numeral.value, Rational.ofInt]⟩
    · rw [exactNumeral?, Store.op, node] at numeral
      exact .inr ⟨r, node, by simp [← Option.some.inj numeral, Numeral.value]⟩
    · exact absurd allowed rational
  refine separates_of_numerals fun a b x y left right first second sorts same => ?_
  refine eq_of_node_eq left.inside right.inside ?_
  unfold Store.sortOf at sorts
  obtain ⟨n, node, value⟩ | ⟨r, node, value⟩ := known left first
  all_goals obtain ⟨m, node', value'⟩ | ⟨q, node', value'⟩ := known right second
  · have equal : n = m := by exact_mod_cast value.symm.trans (same.trans value')
    rw [node, node', equal]
  · simp [node, node'] at sorts
  · simp [node, node'] at sorts
  · have equal : r = q := by exact_mod_cast value.symm.trans (same.trans value')
    rw [node, node', equal]

/-- The application of a term with a value is admitted and defined, its arguments have values, and
its value is that of its head. -/
theorem evaluate_of_view (known : (J.semantics L).Denotes s t sort v)
    (view : s.view t = (op, args)) : s.Admits L sort op args ∧ s.Defined J op args ∧
      (∀ a ∈ args, s.Sensible L J a) ∧ v = op.evaluate J sort (args.map (s.meaning J)) := by
  obtain ⟨rfl, rfl⟩ := view_eq_iff.mp view
  obtain ⟨sorted, rfl, rfl⟩ := known
  exact ⟨Sensible.admits sorted, Sensible.defined sorted,
    fun a member => Sensible.of_mem_args sorted member, meaning_eq J s t⟩

end Valuation

namespace Terms

open Store

variable {J : Valuation} {L : Language} {s : Store} {t a b : TermId} {sort : TermSort}
  {op : Op} {args : List TermId} {v : Value} {x y : ℝ} {m n : ℤ}

/-- An application that is admitted and defined denotes the value of its head. -/
theorem mkApp_evaluates (sort : TermSort) (admits : s.Admits L sort op args)
    (defines : s.Defined J op args) (sensible : ∀ a ∈ args, s.Sensible L J a)
    (inferred : s.inferSort op args = sort)
    (value : op.evaluate J sort (args.map (s.meaning J)) = v) :
    (mkApp op args).Ensures s fun t after => (J.semantics L).Denotes after t sort v := by
  have inside : ∀ a ∈ args, a < s.size := fun a member => (sensible a member).inside
  refine (mkApp_node inside).imp fun t after grown found => ?_
  rw [inferred] at found
  obtain ⟨position, node⟩ := found
  refine ⟨Sensible.of_node position node (admits.mono grown inside) (defines.mono grown inside)
    fun a member => (sensible a member).mono grown, by rw [Store.sortOf, node], ?_⟩
  change after.meaning J t = v
  rw [meaning_eq, Store.op, Store.sortOf, Store.args, node, ← value]
  congr 1
  exact List.map_congr_left fun a member => grown.meaning_eq (inside a member)

/-- Quotient of reals, if it is known. -/
theorem mkDiv_means (left : (J.semantics L).Number s false a x)
    (right : (J.semantics L).Number s false b y) (quotient : s.QuotientKnown J a b) :
    (mkApp .div [a, b]).Ensures s fun t after =>
      (J.semantics L).Number after false t (J.divide x y) := by
  refine mkApp_evaluates .real (admits_of_isFree rfl ⟨rfl, left.sort_eq, right.sort_eq⟩)
    (defined_of_quotientKnown quotient) (by simpa using ⟨left.sorted, right.sorted⟩) rfl ?_
  have first : s.meaning J a = .number x := left.value_eq
  have second : s.meaning J b = .number y := right.value_eq
  simp [Op.evaluate, first, second]

/-- Euclidean remainder of integers. -/
theorem mkMod_means (left : (J.semantics L).Number s true a m)
    (right : (J.semantics L).Number s true b n) :
    (mkApp .mod [a, b]).Ensures s fun t after =>
      (J.semantics L).Number after true t (J.modulo m n) := by
  refine mkApp_evaluates .int (admits_of_isFree rfl ⟨rfl, left.sort_eq, right.sort_eq⟩)
    (defined_of_isTotal rfl) (by simpa using ⟨left.sorted, right.sorted⟩) rfl ?_
  have first : s.meaning J a = .number m := left.value_eq
  have second : s.meaning J b = .number n := right.value_eq
  simp [Op.evaluate, first, second]

/-- Integral part of a real. -/
theorem mkToInt_means (known : (J.semantics L).Number s false a x) :
    (mkApp .toInt [a]).Ensures s fun t after => (J.semantics L).Number after true t ⌊x⌋ := by
  refine mkApp_evaluates .int (admits_of_isFree rfl ⟨rfl, known.sort_eq⟩) (defined_of_isTotal rfl)
    (List.forall_mem_singleton.mpr known.sorted) rfl ?_
  have value : s.meaning J a = .number x := known.value_eq
  simp [Op.evaluate, value]

/-- The number pi. -/
theorem mkPi_means : mkPi.Ensures s fun t after => (J.semantics L).Number after false t Real.pi :=
  mkApp_evaluates .real (admits_of_isFree rfl rfl) (defined_of_isTotal rfl) (by simp) rfl rfl

/-- A function inside its domain. -/
theorem mkFunction_means {f : ℝ → ℝ} (allowed : L.irrationals) (function : op.function? = some f)
    (known : (J.semantics L).Number s false a x) (inside : op.InDomain x) :
    (mkApp op [a]).Ensures s fun t after => (J.semantics L).Number after false t (f x) := by
  have value : s.meaning J a = .number x := known.value_eq
  have other : op ≠ .div ∧ op ≠ .power ∧ s.inferSort op [a] = .real := by
    cases op <;> cases function <;> simp [Store.inferSort]
  refine mkApp_evaluates .real (admits_of_function function known.sort_eq allowed)
    (defined_of_function other.1 other.2.1 ?_) (List.forall_mem_singleton.mpr known.sorted)
    other.2.2 ?_
  · rintro _ ⟨⟩
    rwa [value]
  · rw [List.map_singleton, Op.evaluate_of_function? function, value, Value.num_number]

end Terms
end Stratagem
