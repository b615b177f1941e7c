import Stratagem.Proofs.Rewriting.Effort
import Stratagem.Proofs.Rewriting.Expansion
import Stratagem.Proofs.Term.Scalar

/-!
# Operators on literals

What the rules make of an operator applied to literals: the literal of its value. Most operators are
done at once. Implications, differences, strict comparisons and exclusive disjunctions are written by
other operators first, in a form that is done two levels down.
-/
namespace Stratagem

open Terms Rule

/-- A term is the literal of a value. -/
structure Store.Literal (s : Store) (v : Scalar) (t : TermId) : Prop where
  /-- The literal is in the store. -/
  inside : t < s.size
  /-- The node says so. -/
  node : s.node t = v.literal

namespace Store

variable {s after : Store} {v w z : Scalar} {t u : TermId} {args : List TermId}

namespace Literal

/-- A literal stays one when the store grows. -/
theorem mono (known : s.Literal v t) (grown : s.Extends after) : after.Literal v t :=
  ⟨grown.lt_size known.inside, (grown.node_eq known.inside).trans known.node⟩

/-- A value has one literal. -/
theorem unique (first : s.Literal v t) (second : s.Literal v u) : t = u :=
  eq_of_node_eq first.inside second.inside (first.node.trans second.node.symm)

/-- A literal has one value. -/
theorem injective (first : s.Literal v t) (second : s.Literal w t) : v = w :=
  Scalar.literal_injective (first.node.symm.trans second.node)

/-- Terms are equal exactly if they are literals of equal values. -/
theorem eq_iff (first : s.Literal v t) (second : s.Literal w u) : t = u ↔ v = w :=
  ⟨fun same => (same ▸ first).injective second, fun same => (same ▸ first).unique second⟩

/-- The head of a literal, which has no arguments. -/
theorem view (known : s.Literal v t) : s.view t = (v.literal.op, []) := by
  rw [Store.view, known.node, Scalar.literal_args]

/-- The sort of a literal. -/
theorem sort (known : s.Literal v t) : s.sortOf t = v.sort := by
  rw [sortOf, known.node, Scalar.literal_sort]

/-- A literal is a value. -/
theorem isValue (known : s.Literal v t) : s.isValue t = true := by
  rw [Store.isValue, op, known.node]
  exact v.isValue_literal

/-- The truth values are literals. -/
theorem ofBool (s : Store) (p : Bool) : s.Literal (.truth p) (Terms.ofBool p) := by
  cases p with
  | true => exact ⟨s.node_trueId.1, s.node_trueId.2⟩
  | false => exact ⟨s.node_falseId.1, s.node_falseId.2⟩

/-- The literal of a truth value. -/
theorem eq_ofBool {p : Bool} (known : s.Literal (.truth p) t) : t = Terms.ofBool p :=
  known.unique (ofBool s p)

/-- The literal of an integer. -/
theorem int_iff {n : ℤ} : s.Literal (.int n) t ↔ s.IsLiteral true n t := by
  constructor
  · exact fun known => ⟨known.inside, fun _ => rfl, known.node⟩
  · exact fun known => ⟨known.inside, known.node⟩

/-- The literal of a rational number. -/
theorem real_iff {r : ℚ} : s.Literal (.real r) t ↔ s.IsLiteral false r t := by
  constructor
  · exact fun known => ⟨known.inside, nofun, known.node⟩
  · exact fun known => ⟨known.inside, known.node⟩

/-- Value and width of the literal of a bit-vector. -/
theorem bitVec? {n : ℕ} {x : BitVec n} (known : s.Literal (.word n x) t) :
    s.bitVec? t = some (x.toNat, n) := by
  rw [Store.bitVec?, op, known.node]
  rfl

end Literal

/-- The terms are the literals of values, one by one. -/
abbrev Literals (s : Store) (vs : List Scalar) (terms : List TermId) : Prop :=
  List.Forall₂ s.Literal vs terms

/-- The literal of one value. -/
theorem literals_one (known : s.Literals [v] args) : ∃ a, args = [a] ∧ s.Literal v a := by
  obtain ⟨a, rest, literal, none, rfl⟩ := List.forall₂_cons_left_iff.mp known
  obtain rfl := List.forall₂_nil_left_iff.mp none
  exact ⟨a, rfl, literal⟩

/-- The literals of two values. -/
theorem literals_two (known : s.Literals [v, w] args) :
    ∃ a b, args = [a, b] ∧ s.Literal v a ∧ s.Literal w b := by
  obtain ⟨a, rest, literal, tail, rfl⟩ := List.forall₂_cons_left_iff.mp known
  obtain ⟨b, rfl, second⟩ := literals_one tail
  exact ⟨a, b, rfl, literal, second⟩

/-- The literals of three values. -/
theorem literals_three (known : s.Literals [v, w, z] args) :
    ∃ a b c, args = [a, b, c] ∧ s.Literal v a ∧ s.Literal w b ∧ s.Literal z c := by
  obtain ⟨a, rest, literal, tail, rfl⟩ := List.forall₂_cons_left_iff.mp known
  obtain ⟨b, c, rfl, second, third⟩ := literals_two tail
  exact ⟨a, b, c, rfl, literal, second, third⟩

/-- Literals of truth values. -/
theorem literals_truth {ps : List Bool} {terms : List TermId}
    (known : s.Literals (ps.map .truth) terms) : terms = ps.map Terms.ofBool := by
  have each := List.forall₂_map_left_iff.mp known
  rw [← List.forall₂_eq_eq_eq, List.forall₂_map_right_iff]
  exact each.flip.imp fun t p literal => literal.eq_ofBool

/-- Literals of integers. -/
theorem literals_int {ns : List ℤ} {terms : List TermId}
    (known : s.Literals (ns.map .int) terms) :
    List.Forall₂ (s.IsLiteral true) (ns.map (↑)) terms := by
  have each := List.forall₂_map_left_iff.mp known
  rw [List.forall₂_map_left_iff]
  exact each.imp fun n t literal => Literal.int_iff.mp literal

/-- Literals of rational numbers. -/
theorem literals_real {rs : List ℚ} {terms : List TermId}
    (known : s.Literals (rs.map .real) terms) : List.Forall₂ (s.IsLiteral false) rs terms := by
  have each := List.forall₂_map_left_iff.mp known
  exact each.imp fun r t literal => Literal.real_iff.mp literal

/-- Terms differ exactly if they are literals of different values. -/
theorem literals_nodup {vs : List Scalar} {terms : List TermId} (known : s.Literals vs terms) :
    vs.Nodup ↔ terms.Nodup :=
  List.rel_nodup ⟨fun _ _ _ first second => first.injective second,
    fun _ _ _ first second => first.unique second⟩ known

end Store

/-- A rule is done with the literal of a value. -/
def Outcome.Gives (o : Outcome) (s : Store) (v : Scalar) : Prop := ∃ u, o = .done u ∧ s.Literal v u

namespace Connective

variable {s : Store} {config : SimplifierConfig} {a b c t : TermId} {v w : Scalar} {p : Bool}

/-- Negation of a truth value. -/
theorem reduceNot_gives (known : s.Literal (.truth p) a) :
    (reduceNot a).Ensures config s fun o after => o.Gives after (.truth !p) := by
  unfold reduceNot
  refine ensures_peek ?_
  rw [known.view]
  exact ⟨_, rfl, .ofBool s _⟩

/-- The members of a conjunction or disjunction of truth values: none if all are neutral, and the
absorbing one if it is among them. -/
theorem members_literals (isAnd flat : Bool) (ps : List Bool) :
    ((∀ p ∈ ps, p = isAnd) → members s isAnd flat (ps.map ofBool) = []) ∧
      ((!isAnd) ∈ ps → ofBool (!isAnd) ∈ members s isAnd flat (ps.map ofBool)) := by
  constructor
  · intro neutral
    unfold members
    have skipped : ∀ a ∈ ps.map ofBool,
        gather s (junctionHead isAnd) (ofBool isAnd) flat s.size {} a = {} := by
      intro a member
      obtain ⟨p, inside, rfl⟩ := List.mem_map.mp member
      rw [neutral p inside]
      cases s.size with
      | zero => rfl
      | succ => simp [gather]
    have same := List.foldlRecOn (motive := fun walk : Walk => walk = {}) (ps.map ofBool)
      (gather s (junctionHead isAnd) (ofBool isAnd) flat s.size) (b := {}) rfl
      fun walk before a member => by rw [before, skipped a member]
    rw [same]
  · intro absorbing
    have different : ofBool isAnd ≠ ofBool (!isAnd) := by cases isAnd <;> decide
    have literal : s.op (ofBool !isAnd) = .bool !isAnd := by
      rw [Store.op, (Store.Literal.ofBool s (!isAnd)).node]
      rfl
    have up : ∀ a, s.op a = junctionHead isAnd → (∀ b ∈ s.args a, b ≠ ofBool !isAnd) →
        a ≠ ofBool !isAnd := by
      rintro a head _ rfl
      rw [literal] at head
      cases isAnd <;> cases head
    have inside : ∀ a ∈ ps.map ofBool, a < s.size := by
      intro a member
      obtain ⟨p, _, rfl⟩ := List.mem_map.mp member
      exact (Store.Literal.ofBool s p).inside
    have each (walk : Walk) (a : TermId) (small : a < s.size)
        (known : ∀ m ∈ walk.seen, m ≤ a → Covered (· ≠ ofBool !isAnd) walk m) :
        Covers (· ≠ ofBool !isAnd) walk
          (gather s (junctionHead isAnd) (ofBool isAnd) flat s.size walk a) a :=
      gather_covers (P := (· ≠ ofBool !isAnd)) different up s.size walk a small known
    obtain ⟨_, _, covered⟩ := covers_foldl each (ps.map ofBool) {} inside (by simp)
    by_contra absent
    refine covered (ofBool !isAnd) (List.mem_map_of_mem absorbing) (fun m found same => ?_) rfl
    exact absent (by simpa [members, same] using found)

/-- Conjunction or disjunction of truth values. -/
theorem reduceJunction_gives {isAnd : Bool} {ps : List Bool} (some : ps ≠ []) :
    (reduceJunction isAnd (ps.map ofBool)).Ensures config s fun o after =>
      o.Gives after (.truth (if isAnd then ps.all id else ps.any id)) := by
  unfold reduceJunction
  refine ensures_read_bind (ensures_peek_bind ?_)
  have same : ((ps.map ofBool).foldl (gather s (if isAnd then .and else .or) (ofBool isAnd)
    config.flat s.size) {}).out.toList = members s isAnd config.flat (ps.map ofBool) := rfl
  obtain ⟨none, one⟩ := members_literals (s := s) isAnd config.flat ps
  rw [same]
  by_cases absorbing : (!isAnd) ∈ ps
  · have value : (if isAnd then ps.all id else ps.any id) = !isAnd := by
      cases isAnd <;> simp_all
    rw [if_pos (by simpa using one absorbing), value]
    exact ensures_pure ⟨_, rfl, .ofBool s _⟩
  · have neutral : ∀ p ∈ ps, p = isAnd := by
      intro p member
      cases isAnd <;> cases p <;> simp_all
    have value : (if isAnd then ps.all id else ps.any id) = isAnd := by
      cases isAnd <;> simp_all
    rw [none neutral, if_neg (by simp), value]
    refine ensures_peek_bind ?_
    rw [if_neg (by simp [hasComplement]), if_neg (by simpa using some.symm)]
    cases isAnd <;> exact ensures_pure ⟨_, rfl, .ofBool s _⟩

/-- Conjunction of truth values. -/
theorem reduceAnd_gives {ps : List Bool} (some : ps ≠ []) :
    (reduceAnd t (ps.map ofBool)).Ensures {} s fun o after =>
      o.Gives after (.truth (ps.all id)) := by
  unfold reduceAnd
  refine ensures_bind (reduceJunction_gives some) fun o after _ gives => ?_
  exact Rule.ensures_read_bind (ensures_pure gives)

/-- Case distinction on a truth value. -/
theorem reduceIte_gives (condition : s.Literal (.truth p) c) (yes : s.Literal v a)
    (no : s.Literal w b) :
    (reduceIte c a b).Ensures config s fun o after => o.Gives after (if p then v else w) := by
  obtain rfl := condition.eq_ofBool
  unfold reduceIte
  cases p with
  | true => exact ensures_pure ⟨a, rfl, yes⟩
  | false => exact ensures_pure ⟨b, rfl, no⟩

end Connective

namespace Numeral

/-- The quotient of rational numbers. -/
theorem div_rational {r q : ℚ} (nonzero : q ≠ 0) :
    div (rational r) (rational q) = pure (rational (r / q)) := by
  have inverse : inv (rational q) = pure (rational q⁻¹) := if_neg nonzero
  rw [div, inverse, pure_bind, mul_rational, div_eq_mul_inv]

end Numeral

/-- The order of rational numbers. -/
theorem Rational.order_eq_compare (r q : ℚ) : Rational.order r q = compare r q := by
  rw [LinearOrder.compare_eq_compareOfLessAndEq]
  rfl

/-- The order of integers is that of the rational numbers that they are. -/
theorem Rational.order_intCast (n k : ℤ) : Rational.order n k = compare n k := by
  rw [LinearOrder.compare_eq_compareOfLessAndEq]
  simp only [Rational.order, compareOfLessAndEq, Int.cast_lt, Int.cast_inj]

namespace Arithmetic

variable {s : Store} {config : SimplifierConfig} {a b t : TermId} {isInt : Bool} {x y : ℚ}
  {n k : ℤ} {xs : List ℚ} {terms : List TermId}

/-- A rule is done with the literal of a number. -/
def Computes (isInt : Bool) (x : ℚ) (o : Outcome) (after : Store) : Prop :=
  ∃ u, o = .done u ∧ after.IsLiteral isInt x u

/-- A computed integer as a value. -/
theorem Computes.int {o : Outcome} {n : ℤ} (computes : Computes true x o s) (same : x = n) :
    o.Gives s (.int n) := by
  obtain ⟨u, done, literal⟩ := computes
  exact ⟨u, done, Store.Literal.int_iff.mpr (same ▸ literal)⟩

/-- A computed rational number as a value. -/
theorem Computes.real {o : Outcome} (computes : Computes false x o s) : o.Gives s (.real x) := by
  obtain ⟨u, done, literal⟩ := computes
  exact ⟨u, done, Store.Literal.real_iff.mpr literal⟩

/-- A computed number is done. -/
theorem mkNumeral_computes (integral : isInt → Rational.isIntegral x) :
    (liftM (mkNumeral x isInt) >>= fun u => pure (.done u) : Rule Outcome).Ensures config s
      (Computes isInt x) :=
  ensures_bind (ensures_lift (mkNumeral_literal integral)) fun u _ _ literal =>
    ensures_pure ⟨u, rfl, literal⟩

/-- A computed integer is done. -/
theorem mkInt_computes :
    (liftM (mkInt n) >>= fun u => pure (.done u) : Rule Outcome).Ensures config s
      (Computes true n) := by
  have literal : (mkInt n).Ensures s fun u after => after.IsLiteral true n u :=
    (intern_node (by simp)).imp fun u after _ found => ⟨found.1, fun _ => rfl, found.2⟩
  exact ensures_bind (ensures_lift literal) fun u _ _ literal => ensures_pure ⟨u, rfl, literal⟩

/-- The value of a literal, and then a rule for it. -/
theorem ensures_numeral_bind {next : Option Numeral → Rule Outcome} {post : Outcome → Store → Prop}
    (literal : s.IsLiteral isInt x a)
    (ensured : (next (some (.rational x))).Ensures config s post) :
    (numeralValue? a >>= next).Ensures config s post := by
  have sorted : s.WellSorted ⟨fun _ _ => True, True⟩ a :=
    literal.isPolynomial.wellSorted fun _ _ => trivial
  refine ensures_numeralValue?_bind sorted ?_
  rw [literal.numeral?]
  exact ensured

/-- The value of an integer literal. -/
theorem intValue?_literal (literal : s.IsLiteral true n a) : intValue? s a = some n := by
  rw [intValue?, literal.numeral?]
  rfl

/-- Negation of a literal. -/
theorem reduceNeg_computes (sort : s.isInt t = isInt) (literal : s.IsLiteral isInt x a) :
    (reduceNeg t a).Ensures config s (Computes isInt (-x)) := by
  unfold reduceNeg
  refine ensures_peek_bind ?_
  refine ensures_numeral_bind literal ?_
  rw [sort]
  exact mkNumeral_computes fun int => Rational.isIntegral_neg (literal.integral int)

/-- Literals are no sums and no products. -/
theorem flatMap_flattenTo {head : Op} (compound : head.isAtom = false)
    (known : List.Forall₂ (s.IsLiteral isInt) xs terms) :
    terms.flatMap (fun a => s.flattenTo head (a + 1) a) = terms := by
  induction known with
  | nil => rfl
  | @cons x a xs rest literal _ tail =>
    have other : s.op a ≠ head := by
      rintro rfl
      have view := (Store.view_eq_iff.mp literal.view).1
      rw [view] at compound
      cases isInt <;> cases compound
    rw [List.flatMap_cons, tail, Store.flattenTo_of_ne other]
    rfl

/-- The sum of literals is one literal. -/
theorem gatherSum_literals (known : List.Forall₂ (s.IsLiteral isInt) xs terms) (total : ℚ)
    (monomials : Monomials) :
    (gatherSum terms (some (.rational total)) monomials).Ensures config s fun found after =>
      after = s ∧ found = some (some (.rational (total + xs.sum)), monomials) := by
  induction known generalizing total with
  | nil =>
    rw [List.sum_nil, add_zero]
    exact ensures_pure ⟨rfl, rfl⟩
  | @cons x a xs rest literal _ tail =>
    have sorted : s.WellSorted ⟨fun _ _ => True, True⟩ a :=
      literal.isPolynomial.wellSorted fun _ _ => trivial
    unfold gatherSum
    refine ensures_numeralValue?_bind sorted ?_
    rw [literal.numeral?]
    dsimp only [Option.map]
    rw [Numeral.add_rational]
    refine ensures_evaluate?_bind ?_
    rw [List.sum_cons, ← add_assoc]
    exact tail (total + x)

/-- Sums of integers are integers. -/
theorem isIntegral_sum (known : List.Forall₂ (s.IsLiteral isInt) xs terms) (int : isInt) :
    Rational.isIntegral xs.sum := by
  induction known with
  | nil => exact Rational.isIntegral_zero
  | cons literal _ tail => exact Rational.isIntegral_add (literal.integral int) tail

/-- Products of integers are integers. -/
theorem isIntegral_prod (known : List.Forall₂ (s.IsLiteral isInt) xs terms) (int : isInt) :
    Rational.isIntegral xs.prod := by
  induction known with
  | nil => exact Rational.isIntegral_one
  | cons literal _ tail => exact Rational.isIntegral_mul (literal.integral int) tail

/-- A number is written down, and zero is left out. -/
theorem mkConstant_computes (integral : isInt → Rational.isIntegral x) :
    (((some (Numeral.rational x)).filter fun c => !c.isZero).mapM
      (mkNumber · isInt)).Ensures config s fun found after =>
        (x = 0 ∧ found = none) ∨ ∃ u, found = some u ∧ after.IsLiteral isInt x u := by
  by_cases zero : x = 0
  · subst zero
    exact ensures_pure (.inl ⟨rfl, rfl⟩)
  · have kept : (some (Numeral.rational x)).filter (fun c => !c.isZero) = some (.rational x) := by
      simp [Numeral.isZero, zero]
    rw [kept, Option.mapM_some, map_eq_pure_bind]
    refine ensures_bind (mkNumber_literal integral) ?_
    exact fun u after _ literal => ensures_pure (.inr ⟨u, rfl, literal⟩)

/-- A rule that leaves fewer terms than it was given has changed them. -/
theorem ne_of_length_lt {some : List TermId} (two : 2 ≤ terms.length) (fewer : some.length < 2) :
    some ≠ terms := by
  rintro rfl
  omega

/-- Sum of literals. -/
theorem reduceAdd_computes (sort : s.isInt t = isInt) (two : 2 ≤ terms.length)
    (known : List.Forall₂ (s.IsLiteral isInt) xs terms) :
    (reduceAdd t terms).Ensures {} s (Computes isInt xs.sum) := by
  have integral := isIntegral_sum known
  have flat : terms.flatMap s.summands = terms := flatMap_flattenTo rfl known
  unfold reduceAdd
  refine ensures_peek_bind (ensures_peek_bind ?_)
  rw [sort, flat]
  have gathered : (gatherSum terms none {}).Ensures {} s fun found after =>
      after = s ∧ found = some (some (.rational xs.sum), {}) := by
    cases known with
    | nil => cases two
    | @cons x a xs rest literal others =>
      have sorted : s.WellSorted ⟨fun _ _ => True, True⟩ a :=
        literal.isPolynomial.wellSorted fun _ _ => trivial
      unfold gatherSum
      refine ensures_numeralValue?_bind sorted ?_
      rw [literal.numeral?, List.sum_cons]
      exact gatherSum_literals others x {}
  refine ensures_bind gathered ?_
  rintro _ s _ ⟨rfl, rfl⟩
  refine Rule.ensures_read_bind ?_
  refine ensures_bind (mkConstant_computes integral) ?_
  rintro _ middle _ (⟨zero, rfl⟩ | ⟨u, rfl, literal⟩)
  · refine ensures_pure_bind ?_
    show Rule.Ensures (if [] = terms then _ else _) _ _ _
    rw [if_neg (ne_of_length_lt two (by simp)), zero]
    exact mkNumeral_computes fun _ => Rational.isIntegral_zero
  · refine ensures_pure_bind ?_
    show Rule.Ensures (if [u] = terms then _ else _) _ _ _
    rw [if_neg (ne_of_length_lt two (by simp))]
    exact ensures_pure ⟨u, rfl, literal⟩

/-- The product of literals is one literal. -/
theorem gatherProduct_literals (known : List.Forall₂ (s.IsLiteral isInt) xs terms) (c : ℚ) :
    (gatherProduct isInt terms (.rational c) []).Ensures config s fun found after =>
      match found with
      | .ok (lead, factors) => after = s ∧ lead = .rational (c * xs.prod) ∧ factors = []
      | .error o => xs.prod = 0 ∧ Computes isInt 0 o after := by
  induction known generalizing c with
  | nil =>
    rw [List.prod_nil, mul_one]
    exact ensures_pure ⟨rfl, rfl, rfl⟩
  | @cons x a xs rest literal _ tail =>
    have sorted : s.WellSorted ⟨fun _ _ => True, True⟩ a :=
      literal.isPolynomial.wellSorted fun _ _ => trivial
    unfold gatherProduct
    refine ensures_numeralValue?_bind sorted ?_
    rw [literal.numeral?]
    dsimp only [Option.map]
    split
    · next zero =>
      have zero : x = 0 := by simpa [Numeral.isZero] using zero
      refine ensures_bind (ensures_lift (mkNumeral_literal fun _ => Rational.isIntegral_zero)) ?_
      exact fun u after _ literal => ensures_pure ⟨by simp [zero], u, rfl, literal⟩
    · rw [Numeral.mul_rational]
      refine ensures_evaluate?_bind ?_
      refine (tail (c * x)).imp fun found after _ result => ?_
      cases found with
      | ok pair =>
        obtain ⟨same, value, empty⟩ := result
        exact ⟨same, by rw [value, List.prod_cons, mul_assoc], empty⟩
      | error o =>
        obtain ⟨zero, done⟩ := result
        exact ⟨by rw [List.prod_cons, zero, mul_zero], done⟩

/-- A product of nothing but a number. -/
theorem mkProduct_computes (two : 2 ≤ terms.length) (integral : isInt → Rational.isIntegral x) :
    (mkProduct (.rational x) [] terms isInt).Ensures config s (Computes isInt x) := by
  unfold mkProduct
  refine ensures_ite_bind (lead_literal integral) fun lead after _ known => ?_
  dsimp only
  rw [List.append_nil]
  rcases known with ⟨rfl, rfl⟩ | ⟨_, l, rfl, literal⟩
  · rw [if_neg (ne_of_length_lt two (by simp))]
    exact mkNumeral_computes fun _ => Rational.isIntegral_one
  · rw [if_neg (ne_of_length_lt two (by simp))]
    exact ensures_pure ⟨l, rfl, literal⟩

/-- Product of literals. -/
theorem reduceMul_computes (sort : s.isInt t = isInt) (two : 2 ≤ terms.length)
    (known : List.Forall₂ (s.IsLiteral isInt) xs terms) :
    (reduceMul t terms).Ensures {} s (Computes isInt xs.prod) := by
  have integral := isIntegral_prod known
  have flat : s.factors terms = terms := flatMap_flattenTo rfl known
  unfold reduceMul
  refine ensures_peek_bind (ensures_peek_bind ?_)
  rw [sort, flat]
  refine ensures_bind (gatherProduct_literals known 1) fun found middle _ result => ?_
  match found, result with
  | .error o, ⟨zero, done⟩ =>
    rw [zero]
    exact ensures_pure done
  | .ok (lead, factors), ⟨same, value, empty⟩ =>
    subst value empty
    obtain rfl : s = middle := same.symm
    rw [one_mul]
    have sorted : ascending [] = [] := List.mergeSort_nil
    dsimp only
    rw [sorted]
    refine Rule.ensures_read_bind ?_
    rw [if_neg Bool.false_ne_true]
    refine ensures_pure_bind (ensures_peek_bind (Rule.ensures_read_bind ?_))
    rw [List.any_nil, Bool.and_false, if_neg Bool.false_ne_true]
    exact mkProduct_computes two (integral ·)

/-- Division of literals. -/
theorem reduceDiv_computes (left : s.IsLiteral false x a) (right : s.IsLiteral false y b)
    (nonzero : y ≠ 0) : (reduceDiv a b).Ensures config s (Computes false (x / y)) := by
  have divisor : ¬(Numeral.rational y).isZero = true := by simpa [Numeral.isZero] using nonzero
  unfold reduceDiv
  refine ensures_numeral_bind right ?_
  dsimp only
  rw [if_neg divisor]
  refine ensures_numeral_bind left ?_
  dsimp only
  rw [Numeral.div_rational nonzero]
  refine ensures_evaluate?_bind ?_
  exact ensures_bind (mkNumber_literal (by simp)) fun u _ _ literal => ensures_pure ⟨u, rfl, literal⟩

/-- Euclidean division of literals. -/
theorem reduceIntDiv_computes (left : s.IsLiteral true n a) (right : s.IsLiteral true k b)
    (nonzero : k ≠ 0) :
    (reduceIntDiv a b).Ensures config s (Computes true ((n / k : ℤ) : ℚ)) := by
  unfold reduceIntDiv
  refine ensures_peek_bind ?_
  rw [intValue?_literal right]
  refine ensures_peek_bind ?_
  rw [intValue?_literal left, Option.bind_some, Integer.div?, if_neg nonzero]
  exact mkInt_computes

/-- Euclidean remainder of literals. -/
theorem reduceMod_computes (left : s.IsLiteral true n a) (right : s.IsLiteral true k b)
    (nonzero : k ≠ 0) :
    (reduceMod a b).Ensures config s (Computes true ((n % k : ℤ) : ℚ)) := by
  unfold reduceMod
  refine ensures_peek_bind ?_
  rw [intValue?_literal right]
  dsimp only
  rw [if_neg nonzero]
  refine ensures_peek_bind ?_
  rw [intValue?_literal left, Option.bind_some, Integer.mod?, if_neg nonzero]
  exact mkInt_computes

/-- Remainder of literals with the sign of the divisor. -/
theorem reduceRem_computes (left : s.IsLiteral true n a) (right : s.IsLiteral true k b)
    (nonzero : k ≠ 0) :
    (reduceRem a b).Ensures config s
      (Computes true ((if k < 0 then -(n % k) else n % k : ℤ) : ℚ)) := by
  unfold reduceRem
  refine ensures_peek_bind ?_
  rw [intValue?_literal right]
  dsimp only
  rw [if_neg nonzero]
  refine ensures_peek_bind ?_
  rw [intValue?_literal left, Option.bind_some, Integer.rem?, Integer.mod?, if_neg nonzero]
  exact mkInt_computes

/-- Integral part of a literal. -/
theorem reduceToInt_computes (literal : s.IsLiteral false x a) :
    (reduceToInt a).Ensures config s (Computes true (⌊x⌋ : ℤ)) := by
  unfold reduceToInt
  refine ensures_numeral_bind literal (ensures_evaluate?_bind ?_)
  exact mkInt_computes

/-- Cast of an integer literal. -/
theorem reduceToReal_computes (literal : s.IsLiteral true x a) :
    (reduceToReal a).Ensures config s (Computes false x) := by
  unfold reduceToReal
  refine ensures_peek_bind ?_
  rw [literal.numeral?]
  exact mkNumeral_computes nofun

/-- Integrality of a literal. -/
theorem reduceIsInt_gives (literal : s.IsLiteral false x a) :
    (reduceIsInt a).Ensures config s fun o after => o.Gives after (.truth (x.den = 1)) := by
  unfold reduceIsInt
  refine ensures_numeral_bind literal ?_
  exact ensures_pure ⟨_, rfl, .ofBool s _⟩

/-- Comparison of literals. -/
theorem reduceComparison_gives {relation : Relation} (left : s.IsLiteral isInt x a)
    (right : s.IsLiteral isInt y b) :
    (reduceComparison t relation a b).Ensures config s fun o after =>
      o.Gives after (.truth (relation.holds (Rational.order x y))) := by
  unfold reduceComparison
  refine ensures_numeral_bind left (ensures_numeral_bind right (ensures_evaluate?_bind ?_))
  exact ensures_modify_bind (ensures_pure ⟨_, rfl, .ofBool s _⟩)

/-- Comparison of the literals of two values. -/
theorem reduceComparison_order {vs : List Scalar} {v : Scalar} {f : Ordering → Bool}
    (relation : Relation) (same : ∀ o, relation.holds o = f o) (literals : s.Literals vs terms)
    (applied : Scalar.order f vs = some v) : ∃ a b, terms = [a, b] ∧
      (reduceComparison t relation a b).Ensures config s fun o after => o.Gives after v := by
  rcases Scalar.order_eq_some applied with ⟨n, k, rfl, rfl⟩ | ⟨r, q, rfl, rfl⟩
  · obtain ⟨a, b, rfl, left, right⟩ := Store.literals_two literals
    refine ⟨a, b, rfl, ?_⟩
    rw [← Rational.order_intCast, ← same]
    exact reduceComparison_gives (Store.Literal.int_iff.mp left) (Store.Literal.int_iff.mp right)
  · obtain ⟨a, b, rfl, left, right⟩ := Store.literals_two literals
    refine ⟨a, b, rfl, ?_⟩
    rw [← Rational.order_eq_compare, ← same]
    exact reduceComparison_gives (Store.Literal.real_iff.mp left) (Store.Literal.real_iff.mp right)

end Arithmetic

namespace BitVector

variable {s : Store} {config : SimplifierConfig} {a b : TermId} {w n : ℕ} {x y : BitVec w}
  {z : BitVec n} {v : Scalar}

/-- A bit-vector is given by its value. -/
theorem ofInt_toNat (x : BitVec w) : BitVec.ofInt w (Int.ofNat x.toNat) = x := by simp

/-- The two's complement reading of a bit-vector. -/
theorem toSigned_toNat (x : BitVec w) : toSigned x.toNat w = x.toInt := by
  have sign : (0 < w ∧ x.toNat.testBit (w - 1) = true) ↔ x.msb = true := by
    rw [BitVec.msb_eq_getLsbD_last]
    constructor
    · exact fun known => known.2
    · intro set
      refine ⟨Nat.pos_of_ne_zero ?_, set⟩
      rintro rfl
      simp at set
  rw [toSigned, BitVec.toInt_eq_msb_cond, if_congr sign rfl rfl]
  rfl

/-- The literal of a bit-vector. -/
theorem mkBitVec_literal {value : ℤ} (same : BitVec.ofInt w value = x) :
    (mkBitVec value w).Ensures s fun u after => after.Literal (.word w x) u := by
  refine (mkApp_node (by simp)).imp fun u after _ found => ⟨found.1, ?_⟩
  rw [found.2, Scalar.literal, ← same, BitVec.toNat_ofInt]
  rfl

/-- A computed bit-vector. -/
theorem fold_gives {value : ℤ} (same : BitVec.ofInt w value = x) :
    (fold value w).Ensures config s fun o after => o.Gives after (.word w x) := by
  refine ensures_modify_bind
    (ensures_bind (ensures_lift (mkBitVec_literal same)) fun u after _ found => ?_)
  exact ensures_pure ⟨u, rfl, found⟩

/-- A computed comparison. -/
theorem foldBool_gives (p : Bool) :
    (foldBool p).Ensures config s fun o after => o.Gives after (.truth p) :=
  ensures_modify_bind (ensures_pure ⟨_, rfl, .ofBool s _⟩)

/-- An operation on one bit-vector. -/
theorem reduceInvolution_gives {op : Op} {value : ℕ → ℕ → ℤ} (known : s.Literal (.word w x) a)
    (same : BitVec.ofInt w (value x.toNat w) = y) :
    (reduceInvolution op a value).Ensures config s fun o after => o.Gives after (.word w y) := by
  unfold reduceInvolution
  refine ensures_peek_bind ?_
  rw [known.bitVec?]
  exact fold_gives same

/-- A binary operator on two bit-vectors of one width. -/
theorem reduceBinary_gives {op : Op} (left : s.Literal (.word w x) a)
    (right : s.Literal (.word w y) b)
    (folded : (foldBinary op x.toNat y.toNat w).Ensures config s fun o after => o.Gives after v) :
    (reduceBinary op a b).Ensures config s fun o after => o.Gives after v := by
  unfold reduceBinary
  refine ensures_peek_bind (ensures_peek_bind ?_)
  rw [left.bitVec?, right.bitVec?]
  exact folded

/-- A part of a bit-vector. -/
theorem reduceExtract_gives {high low : ℕ} (known : s.Literal (.word w x) a)
    (small : TermSort.wordWidth (high - low + 1) = high - low + 1) :
    (reduceExtract high low a).Ensures config s fun o after =>
      o.Gives after (.word (high - low + 1) (x.extractLsb high low)) := by
  unfold reduceExtract
  refine ensures_peek_bind ?_
  rw [known.bitVec?]
  dsimp only
  rw [small]
  refine fold_gives ?_
  have part : x.toNat >>> low &&& allOnes (high - low + 1) = (x.extractLsb high low).toNat := by
    rw [BitVec.extractLsb_toNat]
    exact Nat.and_two_pow_sub_one_eq_mod _ _
  rw [part, ofInt_toNat]

/-- Two bit-vectors one after the other. -/
theorem reduceConcat_gives (left : s.Literal (.word w x) a) (right : s.Literal (.word n z) b)
    (built : TermSort.bitVec (w + n) = s.inferSort .bvConcat [a, b]) :
    (do
      match ← peek (·.bitVec? a), ← peek (·.bitVec? b) with
      | some (x, high), some (y, low) =>
        fold (Int.ofNat ((x <<< low) ||| y)) (TermSort.wordWidth (high + low))
      | _, _ => return .failed : Rule Outcome).Ensures config s fun o after =>
        o.Gives after (.word (w + n) (x ++ z)) := by
  refine ensures_peek_bind (ensures_peek_bind ?_)
  rw [left.bitVec?, right.bitVec?]
  have small : TermSort.wordWidth (w + n) = w + n := by
    have widths : s.bitWidth a = w ∧ s.bitWidth b = n := by
      simp [Store.bitWidth, left.sort, right.sort, Scalar.sort, TermSort.width?]
    simpa [Store.inferSort, widths] using built.symm
  dsimp only
  rw [small]
  refine fold_gives ?_
  rw [← BitVec.toNat_append, ofInt_toNat]

end BitVector

/-- An operator is applied to the literals of values. -/
structure Store.Applies (s : Store) (op : Op) (vs : List Scalar) (v : Scalar) (args : List TermId)
    (t : TermId) : Prop extends s.Built op args v.sort t where
  /-- The arguments are literals. -/
  literals : s.Literals vs args
  /-- The value of the application. -/
  value : op.operate vs = some v

namespace Store

variable {s after : Store} {v : Scalar} {vs : List Scalar} {op : Op} {t : TermId}
  {args : List TermId}

/-- An operator on literals stays one when the store grows. -/
theorem Applies.mono (known : s.Applies op vs v args t) (grown : s.Extends after) :
    after.Applies op vs v args t where
  toBuilt := known.toBuilt.mono grown
  literals := known.literals.imp fun _ _ found => found.mono grown
  value := known.value

end Store

/-- Whether the rules for bit-vectors are responsible for an operator. -/
def Op.isBitwise : Op → Bool
  | bvNot | bvNeg | bvAnd | bvOr | bvXor | bvAdd | bvSub | bvMul | bvConcat | bvExtract _ _ | bvUlt
  | bvUle | bvSlt | bvSle => true
  | _ => false

/-- Whether the rules are done with literals under an operator at once. -/
def Op.isDirect : Op → Bool
  | not | and | or | ite | eq | neg | add | mul | div | intDiv | mod | rem | le | ge | toReal
  | toInt | isInt => true
  | op => op.isBitwise

namespace Rewriting

open Arithmetic BitVector

variable {s : Store} {config : SimplifierConfig} {op : Op} {vs : List Scalar} {v : Scalar}
  {args : List TermId} {t : TermId}

/-- An outcome with a literal is no failure. -/
theorem isFailed_of_gives {o : Outcome} (gives : o.Gives s v) : o.isFailed = false := by
  obtain ⟨u, rfl, _⟩ := gives
  rfl

/-- What the rules for connectives give. -/
theorem reduce_gives_of_connective
    (gives : (Connective.reduce t).Ensures config s fun o after => o.Gives after v) :
    (reduce t).Ensures config s fun o after => o.Gives after v :=
  reduce_of_connective (gives.imp fun _ _ _ found => ⟨isFailed_of_gives found, found⟩)

/-- What the rules for numbers give. -/
theorem reduce_gives_of_arithmetic (view : s.view t = (op, args)) (other : op.isConnective = false)
    (gives : (Arithmetic.reduceHead t).Ensures config s fun o after => o.Gives after v) :
    (reduce t).Ensures config s fun o after => o.Gives after v := by
  have applies : (Arithmetic.reduceHead t).Ensures config s fun o after =>
      o.isFailed = false ∧ o.Gives after v :=
    gives.imp fun _ _ _ found => ⟨isFailed_of_gives found, found⟩
  exact (reduce_of_arithmetic (connective_silent view other) applies).imp
    fun _ _ _ found => found.2

/-- What the rules for bit-vectors give. -/
theorem reduce_gives_of_bitwise (view : s.view t = (op, args)) (word : op.isBitwise = true)
    (gives : (BitVector.reduce t).Ensures config s fun o after => o.Gives after v) :
    (reduce t).Ensures config s fun o after => o.Gives after v := by
  have other : op.isConnective = false := by cases op <;> first | rfl | cases word
  have silent : (Arithmetic.reduceHead t).Ensures config s fun o after =>
      o = .failed ∧ after = s := by
    unfold Arithmetic.reduceHead
    refine ensures_peek_bind ?_
    rw [view]
    cases op <;> cases word <;> rcases args with _ | ⟨a, _ | ⟨b, rest⟩⟩ <;>
      exact ensures_pure ⟨rfl, rfl⟩
  refine ensures_bind (connective_silent view other) ?_
  rintro o after _ ⟨rfl, rfl⟩
  refine ensures_bind (Arithmetic.reduce_ensures silent) ?_
  rintro o after _ ⟨rfl, rfl⟩
  refine ensures_bind gives fun o after _ found => ?_
  rw [if_neg (by simp [isFailed_of_gives found])]
  exact ensures_pure found

/-- The rules decide an equation of literals. -/
theorem reduce_equation (known : s.Applies .eq vs v args t) :
    (reduce t).Ensures config s fun o after => o.Gives after v := by
  obtain ⟨⟨inside, node, _⟩, literals, applied⟩ := known
  unfold Op.operate at applied
  dsimp only at applied
  split at applied
  · obtain ⟨a, b, rfl, left, right⟩ := Store.literals_two literals
    obtain ⟨same, result⟩ := Option.ite_none_right_eq_some.mp applied
    have whole : s.nodes[t]? = some ⟨.eq, [a, b], v.sort⟩ := node ▸ Store.getElem?_eq_node inside
    have sorts : s.sortOf a = s.sortOf b := by rw [left.sort, right.sort, same]
    refine (reduce_eq whole left.isValue right.isValue sorts).imp ?_
    rintro _ after _ ⟨rfl, rfl⟩
    rw [← Option.some.inj result, ← decide_eq_decide.mpr (left.eq_iff right)]
    exact ⟨_, rfl, .ofBool _ _⟩
  · cases applied

/-- The rules are done with connectives of truth values. -/
theorem reduce_connective (direct : op.isDirect = true) (connective : op.isConnective = true)
    (known : s.Applies op vs v args t) :
    (reduce t).Ensures {} s fun o after => o.Gives after v := by
  by_cases equation : op = .eq
  · subst equation
    exact reduce_equation known
  · refine reduce_gives_of_connective ?_
    unfold Connective.reduce
    refine ensures_peek_bind ?_
    rw [known.view]
    obtain ⟨⟨inside, node, built⟩, literals, applied⟩ := known
    cases op with
    | not =>
      unfold Op.operate at applied
      dsimp only at applied
      split at applied
      · obtain ⟨a, rfl, literal⟩ := Store.literals_one literals
        obtain rfl := Option.some.inj applied
        exact Connective.reduceNot_gives literal
      · cases applied
    | and =>
      obtain ⟨two, ps, rfl, rfl⟩ := Scalar.join_eq_some applied
      obtain rfl := Store.literals_truth literals
      exact Connective.reduceAnd_gives (by rintro rfl; cases two)
    | or =>
      obtain ⟨two, ps, rfl, rfl⟩ := Scalar.join_eq_some applied
      obtain rfl := Store.literals_truth literals
      exact Connective.reduceJunction_gives (by rintro rfl; cases two)
    | ite =>
      unfold Op.operate at applied
      dsimp only at applied
      split at applied
      · obtain ⟨c, a, b, rfl, condition, yes, no⟩ := Store.literals_three literals
        obtain ⟨_, result⟩ := Option.ite_none_right_eq_some.mp applied
        rw [← Option.some.inj result]
        exact Connective.reduceIte_gives condition yes no
      · cases applied
    | eq => exact absurd rfl equation
    | implies | xor | distinct => cases direct
    | _ => cases connective

/-- The rules are done with operators on numbers. -/
theorem reduce_number (direct : op.isDirect = true) (number : op.isConnective = false)
    (other : op.isBitwise = false) (known : s.Applies op vs v args t) :
    (reduce t).Ensures {} s fun o after => o.Gives after v := by
  refine reduce_gives_of_arithmetic known.view number ?_
  have sort : s.sortOf t = v.sort := congrArg Node.sort known.node
  unfold Arithmetic.reduceHead
  refine ensures_peek_bind ?_
  rw [known.view]
  obtain ⟨⟨inside, node, built⟩, literals, applied⟩ := known
  cases op with
  | neg =>
    unfold Op.operate at applied
    dsimp only at applied
    split at applied
    · obtain ⟨a, rfl, literal⟩ := Store.literals_one literals
      obtain rfl := Option.some.inj applied
      have int : s.isInt t = true := Store.Numbers.isInt_eq sort
      refine (reduceNeg_computes int (Store.Literal.int_iff.mp literal)).imp ?_
      exact fun o after _ computes => computes.int (by push_cast; rfl)
    · obtain ⟨a, rfl, literal⟩ := Store.literals_one literals
      obtain rfl := Option.some.inj applied
      have real : s.isInt t = false := Store.Numbers.isInt_eq sort
      refine (reduceNeg_computes real (Store.Literal.real_iff.mp literal)).imp ?_
      exact fun o after _ computes => computes.real
    · cases applied
  | add =>
    obtain ⟨two, ⟨ns, rfl, rfl⟩ | ⟨rs, rfl, rfl⟩⟩ := Scalar.gather_eq_some applied
    · have int : s.isInt t = true := Store.Numbers.isInt_eq sort
      rw [literals.length_eq] at two
      refine (reduceAdd_computes int two (Store.literals_int literals)).imp ?_
      exact fun o after _ computes => computes.int (Int.cast_list_sum ns).symm
    · have real : s.isInt t = false := Store.Numbers.isInt_eq sort
      rw [literals.length_eq] at two
      refine (reduceAdd_computes real two (Store.literals_real literals)).imp ?_
      exact fun o after _ computes => computes.real
  | mul =>
    obtain ⟨two, ⟨ns, rfl, rfl⟩ | ⟨rs, rfl, rfl⟩⟩ := Scalar.gather_eq_some applied
    · have int : s.isInt t = true := Store.Numbers.isInt_eq sort
      rw [literals.length_eq] at two
      refine (reduceMul_computes int two (Store.literals_int literals)).imp ?_
      exact fun o after _ computes => computes.int (Int.cast_list_prod ns).symm
    · have real : s.isInt t = false := Store.Numbers.isInt_eq sort
      rw [literals.length_eq] at two
      refine (reduceMul_computes real two (Store.literals_real literals)).imp ?_
      exact fun o after _ computes => computes.real
  | div =>
    unfold Op.operate at applied
    dsimp only at applied
    split at applied
    · obtain ⟨a, b, rfl, left, right⟩ := Store.literals_two literals
      obtain ⟨nonzero, result⟩ := Option.ite_none_left_eq_some.mp applied
      obtain rfl := Option.some.inj result
      refine (reduceDiv_computes (Store.Literal.real_iff.mp left) (Store.Literal.real_iff.mp right)
        nonzero).imp ?_
      exact fun o after _ computes => computes.real
    · cases applied
  | intDiv =>
    obtain ⟨n, k, rfl, nonzero, rfl⟩ := Scalar.divide_eq_some applied
    obtain ⟨a, b, rfl, left, right⟩ := Store.literals_two literals
    refine (reduceIntDiv_computes (Store.Literal.int_iff.mp left) (Store.Literal.int_iff.mp right)
      nonzero).imp ?_
    exact fun o after _ computes => computes.int rfl
  | mod =>
    obtain ⟨n, k, rfl, nonzero, rfl⟩ := Scalar.divide_eq_some applied
    obtain ⟨a, b, rfl, left, right⟩ := Store.literals_two literals
    refine (reduceMod_computes (Store.Literal.int_iff.mp left) (Store.Literal.int_iff.mp right)
      nonzero).imp ?_
    exact fun o after _ computes => computes.int rfl
  | rem =>
    obtain ⟨n, k, rfl, nonzero, rfl⟩ := Scalar.divide_eq_some applied
    obtain ⟨a, b, rfl, left, right⟩ := Store.literals_two literals
    refine (reduceRem_computes (Store.Literal.int_iff.mp left) (Store.Literal.int_iff.mp right)
      nonzero).imp ?_
    exact fun o after _ computes => computes.int rfl
  | le =>
    obtain ⟨a, b, rfl, gives⟩ := reduceComparison_order .le (fun o => by cases o <;> rfl) literals
      applied
    exact gives
  | ge =>
    obtain ⟨a, b, rfl, gives⟩ := reduceComparison_order .ge (fun o => by cases o <;> rfl) literals
      applied
    exact gives
  | toReal =>
    unfold Op.operate at applied
    dsimp only at applied
    split at applied
    · obtain ⟨a, rfl, literal⟩ := Store.literals_one literals
      obtain rfl := Option.some.inj applied
      refine (reduceToReal_computes (Store.Literal.int_iff.mp literal)).imp ?_
      exact fun o after _ computes => computes.real
    · cases applied
  | toInt =>
    unfold Op.operate at applied
    dsimp only at applied
    split at applied
    · obtain ⟨a, rfl, literal⟩ := Store.literals_one literals
      obtain rfl := Option.some.inj applied
      refine (reduceToInt_computes (Store.Literal.real_iff.mp literal)).imp ?_
      exact fun o after _ computes => computes.int rfl
    · cases applied
  | isInt =>
    unfold Op.operate at applied
    dsimp only at applied
    split at applied
    · obtain ⟨a, rfl, literal⟩ := Store.literals_one literals
      obtain rfl := Option.some.inj applied
      exact reduceIsInt_gives (Store.Literal.real_iff.mp literal)
    · cases applied
  | not | and | or | ite | eq => cases number
  | bvNot | bvNeg | bvAnd | bvOr | bvXor | bvAdd | bvSub | bvMul | bvConcat | bvExtract | bvUlt
  | bvUle | bvSlt | bvSle => cases other
  | _ => cases direct

/-- The rules are done with operators on bit-vectors. -/
theorem reduce_bitwise (word : op.isBitwise = true) (known : s.Applies op vs v args t) :
    (reduce t).Ensures config s fun o after => o.Gives after v := by
  refine reduce_gives_of_bitwise known.view word ?_
  unfold BitVector.reduce
  refine ensures_peek_bind ?_
  rw [known.view]
  obtain ⟨⟨inside, node, built⟩, literals, applied⟩ := known
  cases op with
  | bvNot =>
    obtain ⟨w, x, rfl, rfl⟩ := Scalar.map_eq_some applied
    obtain ⟨a, rfl, literal⟩ := Store.literals_one literals
    refine reduceInvolution_gives literal ?_
    have flipped : allOnes w ^^^ x.toNat = (~~~x).toNat := by
      rw [BitVec.not_def, BitVec.toNat_xor, BitVec.toNat_allOnes]
      rfl
    rw [flipped, ofInt_toNat]
  | bvNeg =>
    obtain ⟨w, x, rfl, rfl⟩ := Scalar.map_eq_some applied
    obtain ⟨a, rfl, literal⟩ := Store.literals_one literals
    refine reduceInvolution_gives literal ?_
    rw [BitVec.ofInt_neg, ofInt_toNat]
  | bvAnd =>
    obtain ⟨w, x, y, rfl, rfl⟩ := Scalar.combine_eq_some applied
    obtain ⟨a, b, rfl, left, right⟩ := Store.literals_two literals
    refine reduceBinary_gives left right (fold_gives ?_)
    rw [← BitVec.toNat_and, ofInt_toNat]
  | bvOr =>
    obtain ⟨w, x, y, rfl, rfl⟩ := Scalar.combine_eq_some applied
    obtain ⟨a, b, rfl, left, right⟩ := Store.literals_two literals
    refine reduceBinary_gives left right (fold_gives ?_)
    rw [← BitVec.toNat_or, ofInt_toNat]
  | bvXor =>
    obtain ⟨w, x, y, rfl, rfl⟩ := Scalar.combine_eq_some applied
    obtain ⟨a, b, rfl, left, right⟩ := Store.literals_two literals
    refine reduceBinary_gives left right (fold_gives ?_)
    rw [← BitVec.toNat_xor, ofInt_toNat]
  | bvAdd =>
    obtain ⟨w, x, y, rfl, rfl⟩ := Scalar.combine_eq_some applied
    obtain ⟨a, b, rfl, left, right⟩ := Store.literals_two literals
    refine reduceBinary_gives left right (fold_gives ?_)
    rw [BitVec.ofInt_add, ofInt_toNat, ofInt_toNat]
  | bvSub =>
    obtain ⟨w, x, y, rfl, rfl⟩ := Scalar.combine_eq_some applied
    obtain ⟨a, b, rfl, left, right⟩ := Store.literals_two literals
    refine reduceBinary_gives left right (fold_gives ?_)
    rw [Int.sub_eq_add_neg, BitVec.ofInt_add, BitVec.ofInt_neg, ofInt_toNat, ofInt_toNat,
      BitVec.sub_eq_add_neg]
  | bvMul =>
    obtain ⟨w, x, y, rfl, rfl⟩ := Scalar.combine_eq_some applied
    obtain ⟨a, b, rfl, left, right⟩ := Store.literals_two literals
    refine reduceBinary_gives left right (fold_gives ?_)
    rw [BitVec.ofInt_mul, ofInt_toNat, ofInt_toNat]
  | bvUlt | bvUle =>
    obtain ⟨w, x, y, rfl, rfl⟩ := Scalar.relate_eq_some applied
    obtain ⟨a, b, rfl, left, right⟩ := Store.literals_two literals
    exact reduceBinary_gives left right (foldBool_gives _)
  | bvSlt | bvSle =>
    obtain ⟨w, x, y, rfl, rfl⟩ := Scalar.relate_eq_some applied
    obtain ⟨a, b, rfl, left, right⟩ := Store.literals_two literals
    refine reduceBinary_gives left right ?_
    unfold foldBinary
    dsimp only
    rw [toSigned_toNat, toSigned_toNat]
    exact foldBool_gives _
  | bvConcat =>
    unfold Op.operate at applied
    dsimp only at applied
    split at applied
    · obtain ⟨a, b, rfl, left, right⟩ := Store.literals_two literals
      obtain rfl := Option.some.inj applied
      exact reduceConcat_gives left right built
    · cases applied
  | bvExtract high low =>
    unfold Op.operate at applied
    dsimp only at applied
    split at applied
    · obtain ⟨a, rfl, literal⟩ := Store.literals_one literals
      obtain ⟨_, result⟩ := Option.ite_none_right_eq_some.mp applied
      obtain rfl := Option.some.inj result
      exact reduceExtract_gives literal (TermSort.bitVec.inj built).symm
    · cases applied
  | _ => cases word

/-- The rules are done with literals under most operators. -/
theorem reduce_direct (direct : op.isDirect = true) (known : s.Applies op vs v args t) :
    (reduce t).Ensures {} s fun o after => o.Gives after v := by
  by_cases word : op.isBitwise = true
  · exact reduce_bitwise word known
  · by_cases connective : op.isConnective = true
    · exact reduce_connective direct connective known
    · exact reduce_number direct (by simpa using connective) (by simpa using word) known

end Rewriting

end Stratagem
