import Stratagem.Proofs.Rewriting.Canonical
import Stratagem.Proofs.Rewriting.Sum

/-!
# Sums and products of canonical terms

What the rules for sums and products make of canonical arguments when sums are multiplied out and
ordered. A sum of canonical terms becomes a canonical term. So does a product, unless one of the
factors is a sum: then it becomes a sum of products of monomials, which is visited again.
-/
namespace Stratagem

open Terms Rule

/-- The configuration under which polynomials have canonical forms. -/
def SimplifierConfig.canonizing : SimplifierConfig := { som := true, sortSums := true }

/-- A term is a canonical sum of at most a number of monomials. -/
def Store.Expands (s : Store) (isInt : Bool) (k : ℕ) (t : TermId) : Prop :=
  ∃ ms, s.Canonical isInt ms t ∧ ms.length ≤ k

namespace Store

variable {s after : Store} {isInt : Bool} {k : ℕ} {c : ℚ} {t f : TermId} {m : Monomial}

/-- Canonical sums stay when the store grows. -/
theorem Expands.mono (known : s.Expands isInt k t) (grown : s.Extends after) :
    after.Expands isInt k t := by
  obtain ⟨ms, canonical, few⟩ := known
  exact ⟨ms, canonical.mono grown, few⟩

/-- More monomials may be allowed. -/
theorem Expands.weaken {j : ℕ} (known : s.Expands isInt j t) (le : j ≤ k) :
    s.Expands isInt k t := by
  obtain ⟨ms, canonical, few⟩ := known
  exact ⟨ms, canonical, few.trans le⟩

/-- A canonical sum is a polynomial. -/
theorem Expands.isPolynomial (known : s.Expands isInt k t) : s.IsPolynomial isInt t := by
  obtain ⟨ms, canonical, _⟩ := known
  exact canonical.isPolynomial

/-- A monomial is a canonical sum. -/
theorem Spells.expands (known : s.Spells isInt m t) : s.Expands isInt 1 t := by
  by_cases zero : m.coeff = 0
  · cases known with
    | literal literal =>
      dsimp only at zero
      subst zero
      exact ⟨[], ⟨nofun, .nil, .inl ⟨rfl, literal⟩⟩, Nat.zero_le _⟩
    | product => exact absurd zero one_ne_zero
    | multiple _ _ nonzero => exact absurd zero nonzero
  · refine ⟨[m], ⟨by simpa using zero, List.pairwise_singleton _ _, .inr ⟨[t], ?_, .one t⟩⟩,
      Nat.le_refl _⟩
    exact .cons known .nil

/-- The coefficient of a monomial of integers is an integer. -/
theorem Spells.integral (known : s.Spells isInt m t) (int : isInt) :
    Rational.isIntegral m.coeff := by
  cases known with
  | literal literal => exact literal.integral int
  | product => exact Rational.isIntegral_one
  | multiple _ _ _ _ literal => exact literal.integral int

/-- The number of summands of a canonical sum. -/
theorem Expands.length_summands (known : s.Expands isInt k t) (positive : 0 < k) :
    (s.summands t).length ≤ k := by
  obtain ⟨ms, canonical, few⟩ := known
  have lengths := canonical.summands.length_eq
  split at lengths
  · rw [← lengths]
    exact positive
  · simpa [← lengths] using few

/-- The summands of a canonical sum are monomials. -/
theorem Expands.spells_of_mem (known : s.Expands isInt k t) {a : TermId}
    (member : a ∈ s.summands t) : ∃ m, s.Spells isInt m a := by
  obtain ⟨ms, canonical, _⟩ := known
  obtain ⟨m, _, spelled⟩ := exists_of_forall₂ canonical.summands.flip member
  exact ⟨m, spelled⟩

end Store

namespace Arithmetic

variable {s : Store} {isInt : Bool} {config : SimplifierConfig} {t : TermId} {args : List TermId}

section Building

/-- A literal is built. -/
theorem mkNumeral_literal {c : ℚ} (integral : isInt → Rational.isIntegral c) :
    (mkNumeral c isInt).Ensures s fun t after => after.IsLiteral isInt c t := by
  have built : (intern (Store.literalNode isInt c)).Ensures s fun t after =>
      after.IsLiteral isInt c t := by
    have atomic : ∀ a ∈ (Store.literalNode isInt c).args, a < s.size := by cases isInt <;> nofun
    exact (intern_node atomic).imp fun t after _ found => ⟨found.1, integral, found.2⟩
  unfold mkNumeral
  cases isInt with
  | false => exact built
  | true =>
    rw [integral rfl]
    exact built

/-- A literal is built. -/
theorem mkNumber_literal {c : ℚ} (integral : isInt → Rational.isIntegral c) :
    (mkNumber (.rational c) isInt).Ensures config s fun t after => after.IsLiteral isInt c t :=
  ensures_lift (mkNumeral_literal integral)

/-- An application to several polynomials is built. -/
theorem mkApp_polynomials {op : Op} (head : op = .neg ∨ op = .sub ∨ op = .add ∨ op = .mul)
    (some : args ≠ []) (each : ∀ a ∈ args, s.IsPolynomial isInt a) :
    (mkApp op args).Ensures s fun t after =>
      t < after.size ∧ after.node t = ⟨op, args, .number isInt⟩ := by
  have joined : s.arithJoin args = .number isInt :=
    arithJoin_eq (TermSort.isArith_number isInt) some fun a member => (each a member).sort
  have same : s.inferSort op args = .number isInt := by
    obtain rfl | rfl | rfl | rfl := head <;> exact joined
  rw [← same]
  exact mkApp_node fun a member => (each a member).inside

/-- A sum of polynomials is built. -/
theorem mkAdd_joins (some : args ≠ []) (each : ∀ a ∈ args, s.IsPolynomial isInt a) :
    (mkAdd args).Ensures s fun t after => after.Joins .add (.number isInt) args t := by
  have built := mkApp_polynomials (.inr (.inr (.inl rfl))) some each
  match args, some with
  | [a], _ => exact ensures_pure (.one a)
  | _ :: _ :: _, _ => exact built.imp fun t after _ found => .many (by simp) found.1 found.2

/-- A product of polynomials is built. -/
theorem mkMul_joins (some : args ≠ []) (each : ∀ a ∈ args, s.IsPolynomial isInt a) :
    (mkMul args).Ensures s fun t after => after.Joins .mul (.number isInt) args t := by
  have built := mkApp_polynomials (.inr (.inr (.inr rfl))) some each
  match args, some with
  | [a], _ => exact ensures_pure (.one a)
  | _ :: _ :: _, _ => exact built.imp fun t after _ found => .many (by simp) found.1 found.2

/-- A monomial is built. -/
theorem mkMonomial_spells {m : Monomial} (product : s.IsProduct isInt m.product)
    (some : m.product ≠ []) (nonzero : m.coeff ≠ 0)
    (integral : isInt → Rational.isIntegral m.coeff) :
    (mkMonomial m.coeff m.product isInt).Ensures config s fun t after =>
      after.Spells isInt m t := by
  obtain ⟨c, xs⟩ := m
  dsimp only at product some nonzero integral ⊢
  cases xs with
  | nil => exact absurd rfl some
  | cons x rest =>
    unfold mkMonomial
    dsimp only
    by_cases one : c = 1
    · subst one
      rw [if_pos rfl]
      apply ensures_lift
      refine (mkMul_joins some product.isPolynomial).imp ?_
      exact fun t after grown joins => .product (product.mono grown) some joins
    · rw [if_neg one]
      refine ensures_peek_bind ?_
      refine Rule.ensures_read_bind ?_
      have rational : s.algebraic? x = none := by
        obtain ⟨name, node⟩ := (product.constants x (List.mem_cons_self ..)).node
        rw [Store.algebraic?, Store.op, node]
      rw [rational]
      have built : (do mkMul ((← mkNumeral c isInt) :: x :: rest) : Rule TermId).Ensures config s
          fun t after => after.Spells isInt ⟨c, x :: rest⟩ t := by
        refine ensures_bind (ensures_lift (mkNumeral_literal integral)) ?_
        intro l middle grown literal
        apply ensures_lift
        have each : ∀ a ∈ l :: x :: rest, middle.IsPolynomial isInt a :=
          List.forall_mem_cons.mpr ⟨literal.isPolynomial, (product.mono grown).isPolynomial⟩
        refine (mkMul_joins (List.cons_ne_nil l _) each).imp ?_
        intro t after more joins
        exact .multiple ((product.mono grown).mono more) some nonzero one (literal.mono more) joins
      cases config.algebraicNumberEvaluator <;> exact built

/-- Monomials are built one after the other. -/
theorem mkMonomials_spells {ms : List Monomial}
    (each : ∀ m ∈ ms, s.IsProduct isInt m.product ∧ m.product ≠ [] ∧ m.coeff ≠ 0 ∧
      (isInt → Rational.isIntegral m.coeff)) :
    (mkMonomials ms isInt).Ensures config s fun terms after =>
      List.Forall₂ (after.Spells isInt) ms terms := by
  have lasting : ∀ (m : Monomial) (t : TermId) (before after : Store), before.Extends after →
      before.Spells isInt m t → after.Spells isInt m t := fun _ _ _ _ more known => known.mono more
  refine Rule.ensures_mapM lasting ms fun m member now grown => ?_
  obtain ⟨product, some, nonzero, integral⟩ := each m member
  exact mkMonomial_spells (product.mono grown) some nonzero integral

end Building

section Sums

/-- A literal that is gathered. -/
def IsWhole (isInt : Bool) (constant : Option ℚ) : Prop :=
  ∀ c ∈ constant, isInt → Rational.isIntegral c

/-- Monomials that are gathered: each stands for a power product of its own. -/
structure Gathered (s : Store) (isInt : Bool) (m : Monomials) : Prop where
  /-- The power products differ. -/
  apart : m.Apart
  /-- They are ordered lists of constants. -/
  products : ∀ e ∈ m.toList, s.IsProduct isInt e.product ∧ e.product ≠ []
  /-- Coefficients are integers if the sort is that of integers. -/
  integral : ∀ e ∈ m.toList, isInt → Rational.isIntegral e.coeff

/-- One more monomial is gathered. -/
theorem Gathered.add {m : Monomials} {e : Monomial} (known : Gathered s isInt m)
    (product : s.IsProduct isInt e.product) (some : e.product ≠ [])
    (integral : isInt → Rational.isIntegral e.coeff) :
    Gathered s isInt (m.add e.coeff e.product) := by
  have all : ∀ d ∈ (m.add e.coeff e.product).toList,
      (s.IsProduct isInt d.product ∧ d.product ≠ []) ∧ (isInt → Rational.isIntegral d.coeff) :=
    Monomials.forall_add (fun d member => ⟨known.products d member, known.integral d member⟩)
      ⟨⟨product, some⟩, integral⟩
      fun d old => ⟨old.1, fun int => Rational.isIntegral_add (old.2 int) (integral int)⟩
  exact ⟨known.apart.add _ _, fun d member => (all d member).1, fun d member => (all d member).2⟩

/-- Gathering monomials gives a literal and monomials, no more than there are terms. -/
theorem gatherSum_spells : ∀ (terms : List TermId) (constant : Option ℚ) (monomials : Monomials),
    (∀ a ∈ terms, ∃ m, s.Spells isInt m a) → IsWhole isInt constant →
    Gathered s isInt monomials →
    (gatherSum terms (constant.map .rational) monomials).Ensures config s fun found after =>
      after = s ∧ ∃ total gathered, found = some (Option.map .rational total, gathered) ∧
        IsWhole isInt total ∧ Gathered s isInt gathered ∧
        total.toList.length + gathered.size ≤
          constant.toList.length + monomials.size + terms.length
  | [], constant, monomials, _, whole, known =>
    ensures_pure ⟨rfl, constant, monomials, rfl, whole, known, Nat.le_refl _⟩
  | t :: rest, constant, monomials, spells, whole, known => by
    obtain ⟨⟨m, spelled⟩, later⟩ := List.forall_mem_cons.mp spells
    have sorted : s.WellSorted ⟨fun _ _ => True, True⟩ t :=
      spelled.isPolynomial.wellSorted fun _ _ => trivial
    unfold gatherSum
    refine ensures_numeralValue?_bind sorted ?_
    by_cases some : m.product = []
    · obtain ⟨c, literal⟩ : ∃ c, s.IsLiteral isInt c t := by
        cases spelled with
        | literal literal => exact ⟨_, literal⟩
        | product _ filled => exact absurd some filled
        | multiple _ filled => exact absurd some filled
      rw [literal.numeral?]
      have step (total : Option ℚ) (whole : IsWhole isInt total) (one : total.toList.length = 1) :
          (gatherSum rest (total.map .rational) monomials).Ensures config s fun found after =>
            after = s ∧ ∃ total gathered, found = Option.some (Option.map .rational total, gathered) ∧
              IsWhole isInt total ∧ Gathered s isInt gathered ∧
              total.toList.length + gathered.size ≤
                constant.toList.length + monomials.size + (t :: rest).length := by
        refine (gatherSum_spells rest total monomials later whole known).imp ?_
        rintro found after _ ⟨rfl, total, gathered, rfl, whole, known, few⟩
        refine ⟨rfl, total, gathered, rfl, whole, known, few.trans ?_⟩
        rw [one, List.length_cons]
        omega
      cases constant with
      | none => exact step (.some c) (fun _ found => Option.some.inj found ▸ literal.integral) rfl
      | some total =>
        dsimp only [Option.map]
        rw [Numeral.add_rational]
        refine ensures_evaluate?_bind ?_
        refine step (.some (total + c)) (fun _ found int => ?_) rfl
        rw [← Option.some.inj found]
        exact Rational.isIntegral_add (whole total rfl int) (literal.integral int)
    · obtain ⟨literal, read⟩ := spelled.monomial_eq some
      rw [literal]
      refine ensures_peek_bind ?_
      rw [read]
      have more := known.add spelled.polynomial.1 some spelled.integral
      refine (gatherSum_spells rest constant _ later whole more).imp ?_
      rintro found after _ ⟨rfl, total, gathered, rfl, whole, known, few⟩
      have size := monomials.size_add_le m.coeff m.product
      refine ⟨rfl, total, gathered, rfl, whole, known, few.trans ?_⟩
      rw [List.length_cons]
      omega

/-- The term itself, or a result that is done, is a canonical sum. -/
def Answers (isInt : Bool) (k : ℕ) (t : TermId) (o : Outcome) (after : Store) : Prop :=
  (o = .failed ∧ after.Expands isInt k t) ∨ ∃ u, o = .done u ∧ after.Expands isInt k u

/-- The literal of a sum and its monomial, unless it is zero. -/
theorem mkConstant_spells {total : Option ℚ} (whole : IsWhole isInt total) :
    (((total.map Numeral.rational).filter fun c => !c.isZero).mapM
      (mkNumber · isInt)).Ensures config s fun constant after =>
        ∃ lead : List Monomial, List.Forall₂ (after.Spells isInt) lead constant.toList ∧
          (∀ m ∈ lead, m.coeff ≠ 0 ∧ m.product = []) ∧ lead.length ≤ total.toList.length ∧
          lead.Pairwise (·.product < ·.product) := by
  have none : (pure Option.none : Rule (Option TermId)).Ensures config s fun constant after =>
      ∃ lead : List Monomial, List.Forall₂ (after.Spells isInt) lead constant.toList ∧
        (∀ m ∈ lead, m.coeff ≠ 0 ∧ m.product = []) ∧ lead.length ≤ total.toList.length ∧
        lead.Pairwise (·.product < ·.product) :=
    ensures_pure ⟨[], .nil, nofun, Nat.zero_le _, .nil⟩
  cases total with
  | none => exact none
  | some c =>
    by_cases zero : c = 0
    · subst zero
      exact none
    · have kept : ((Option.some c).map Numeral.rational).filter (fun c => !c.isZero) =
          Option.some (.rational c) := by
        simp [Numeral.isZero, zero]
      rw [kept, Option.mapM_some, map_eq_pure_bind]
      refine ensures_bind (mkNumber_literal (whole c rfl)) ?_
      intro l after _ literal
      refine ensures_pure ⟨[⟨c, []⟩], .cons (.literal literal) .nil, ?_, Nat.le_refl _,
        List.pairwise_singleton _ _⟩
      simpa using zero

/-- A sum of canonical terms becomes a canonical sum. -/
theorem reduceAdd_answers {ks : List ℕ} (inside : t < s.size)
    (node : s.node t = ⟨.add, args, .number isInt⟩) (two : 2 ≤ args.length)
    (each : List.Forall₂ (fun a k => 0 < k ∧ s.Expands isInt k a) args ks) :
    (reduceAdd t args).Ensures .canonizing s (Answers isInt ks.sum t) := by
  have spells : ∀ a ∈ args.flatMap s.summands, ∃ m, s.Spells isInt m a := by
    intro a member
    obtain ⟨b, inside, member⟩ := List.mem_flatMap.mp member
    obtain ⟨k, _, _, expands⟩ := exists_of_forall₂ each inside
    exact expands.spells_of_mem member
  have few : (args.flatMap s.summands).length ≤ ks.sum := by
    clear node two spells
    induction each with
    | nil => exact Nat.le_refl _
    | cons first _ rest =>
      rw [List.flatMap_cons, List.length_append, List.sum_cons]
      exact Nat.add_le_add (first.2.length_summands first.1) rest
  have sort : s.isInt t = isInt := by
    rw [Store.isInt, Store.sortOf, node]
    cases isInt <;> rfl
  unfold reduceAdd
  refine ensures_peek_bind ?_
  refine ensures_peek_bind ?_
  rw [sort]
  have none : IsWhole isInt none := by simp [IsWhole]
  have nothing : Gathered s isInt {} :=
    ⟨Monomials.apart_empty, fun _ within => absurd within List.not_mem_nil,
      fun _ within => absurd within List.not_mem_nil⟩
  refine ensures_bind (gatherSum_spells _ Option.none {} spells none nothing) ?_
  rintro found s _ ⟨rfl, total, gathered, rfl, whole, known, size⟩
  refine Rule.ensures_read_bind ?_
  obtain ⟨collection, same, sorted⟩ : ∃ collection : Monomials,
      (if SimplifierConfig.canonizing.sortSums then gathered.retainNonzero.sort
        else gathered.retainNonzero) = collection ∧
      gathered.retainNonzero.sort = collection := ⟨_, rfl, rfl⟩
  simp only [same]
  replace sorted := congrArg Monomials.toList sorted
  generalize collection.toList = monomials at sorted ⊢
  have members : ∀ m ∈ monomials, s.IsProduct isInt m.product ∧ m.product ≠ [] ∧ m.coeff ≠ 0 ∧
      (isInt → Rational.isIntegral m.coeff) := by
    intro m member
    rw [← sorted] at member
    obtain ⟨retained, nonzero⟩ := Monomials.mem_sort member
    have original := (Monomials.mem_retainNonzero retained).1
    exact ⟨(known.products m original).1, (known.products m original).2, nonzero,
      known.integral m original⟩
  have increasing : monomials.Pairwise (·.product < ·.product) :=
    sorted ▸ gathered.retainNonzero.increasing_sort
  have length : monomials.length ≤ gathered.size :=
    sorted ▸ Monomials.length_sort_le.trans Monomials.size_retainNonzero_le
  refine ensures_bind (mkConstant_spells whole) ?_
  rintro constant middle grown ⟨lead, leads, literals, one, order⟩
  have later : ∀ m ∈ monomials, middle.IsProduct isInt m.product ∧ m.product ≠ [] ∧ m.coeff ≠ 0 ∧
      (isInt → Rational.isIntegral m.coeff) := fun m member =>
    ⟨(members m member).1.mono grown, (members m member).2⟩
  refine ensures_bind (mkMonomials_spells later) ?_
  intro terms last more built
  have all : List.Forall₂ (last.Spells isInt) (lead ++ monomials) (constant.toList ++ terms) :=
    List.rel_append (leads.imp fun _ _ spelled => spelled.mono more) built
  generalize constant.toList ++ terms = terms at all
  have nonzero : ∀ m ∈ lead ++ monomials, m.coeff ≠ 0 := by
    intro m member
    obtain first | other := List.mem_append.mp member
    · exact (literals m first).1
    · exact (members m other).2.2.1
  have ordered : (lead ++ monomials).Pairwise (·.product < ·.product) := by
    refine List.pairwise_append.mpr ⟨order, increasing, fun l first m other => ?_⟩
    rw [(literals l first).2]
    obtain ⟨x, rest, filled⟩ := List.exists_cons_of_ne_nil (members m other).2.1
    rw [filled]
    exact List.nil_lt_cons x rest
  have bound : (lead ++ monomials).length ≤ ks.sum := by
    rw [List.length_append]
    have empty : (Option.none : Option ℚ).toList.length + (Monomials.size {}) = 0 := rfl
    omega
  split
  · next same =>
    subst same
    have joins : last.Joins .add (.number isInt) terms t := by
      have grown := grown.trans more
      exact .many two (grown.lt_size inside) ((grown.node_eq inside).trans node)
    exact ensures_pure (.inl ⟨rfl, _, ⟨nonzero, ordered, .inr ⟨terms, all, joins⟩⟩, bound⟩)
  split
  · next empty =>
    refine ensures_bind (ensures_lift (mkNumeral_literal fun _ => Rational.isIntegral_zero)) ?_
    intro u final _ zero
    exact ensures_pure (.inr ⟨u, rfl, [], ⟨(by simp), .nil, .inl ⟨rfl, zero⟩⟩, Nat.zero_le _⟩)
  · next some =>
    have some : terms ≠ [] := by simpa using some
    have polynomials : ∀ a ∈ terms, last.IsPolynomial isInt a := by
      intro a member
      obtain ⟨m, _, spelled⟩ := exists_of_forall₂ all.flip member
      exact spelled.isPolynomial
    refine ensures_bind (ensures_lift (mkAdd_joins some polynomials)) ?_
    intro u final most joins
    have spelled := all.imp fun _ _ spelled => spelled.mono most
    exact ensures_pure (.inr ⟨u, rfl, _, ⟨nonzero, ordered, .inr ⟨terms, spelled, joins⟩⟩, bound⟩)

end Sums

section Factors

variable {k : ℕ} {a f : TermId} {m : Monomial}

/-- A term is a literal or a constant. -/
def IsAtom (s : Store) (isInt : Bool) (f : TermId) : Prop :=
  (∃ c, s.IsLiteral isInt c f) ∨ s.IsConstant isInt f

/-- A term is a literal, a constant or a canonical sum of several monomials. -/
def IsFactor (s : Store) (isInt : Bool) (f : TermId) : Prop :=
  IsAtom s isInt f ∨ s.op f = .add ∧ ∃ k, s.Expands isInt k f ∧ 2 ≤ (s.summands f).length

/-- A constant is a monomial. -/
theorem spells_of_constant (constant : s.IsConstant isInt f) : s.Spells isInt ⟨1, [f]⟩ f :=
  .product ⟨by simpa using constant, List.pairwise_singleton _ _⟩ (List.cons_ne_nil f _) (.one f)

/-- Literals and constants are monomials. -/
theorem IsAtom.spells (atom : IsAtom s isInt f) : ∃ m, s.Spells isInt m f := by
  obtain ⟨c, literal⟩ | constant := atom
  · exact ⟨_, .literal literal⟩
  · exact ⟨_, spells_of_constant constant⟩

/-- Factors are canonical sums. -/
theorem IsFactor.expands (factor : IsFactor s isInt f) : ∃ k, s.Expands isInt k f := by
  obtain atom | ⟨_, k, expands, _⟩ := factor
  · obtain ⟨m, spelled⟩ := atom.spells
    exact ⟨1, spelled.expands⟩
  · exact ⟨k, expands⟩

/-- Factors and their summands stay when the store grows. -/
theorem IsFactor.mono {after : Store} (factor : IsFactor s isInt f) (grown : s.Extends after) :
    IsFactor after isInt f ∧ after.summands f = s.summands f := by
  obtain ⟨k, expands⟩ := factor.expands
  have inside := expands.isPolynomial.inside
  have summands : after.summands f = s.summands f := grown.flattenTo_eq .add (f + 1) inside
  refine ⟨?_, summands⟩
  obtain (⟨c, literal⟩ | constant) | ⟨head, k, expands, two⟩ := factor
  · exact .inl (.inl ⟨c, literal.mono grown⟩)
  · exact .inl (.inr (constant.mono grown))
  · exact .inr ⟨(grown.op_eq inside).trans head, k, expands.mono grown, summands ▸ two⟩

/-- A monomial has one summand. -/
theorem summands_of_spells (spelled : s.Spells isInt m f) : s.summands f = [f] :=
  Store.flattenTo_of_ne spelled.op_ne_add (f + 1)

/-- The factors of a monomial are literals and constants. -/
theorem atoms_of_spells (spelled : s.Spells isInt m a) :
    ∀ f ∈ s.flattenTo .mul (a + 1) a, IsAtom s isInt f := by
  have other {f : TermId} (atom : IsAtom s isInt f) : s.op f ≠ .mul := by
    obtain ⟨c, literal⟩ | constant := atom
    · rw [Store.op, literal.node]
      cases isInt <;> nofun
    · obtain ⟨name, node⟩ := constant.node
      rw [Store.op, node]
      nofun
  have joined {terms : List TermId} (joins : s.Joins .mul (.number isInt) terms a)
      (atoms : ∀ f ∈ terms, IsAtom s isInt f) : ∀ f ∈ s.flattenTo .mul (a + 1) a,
      IsAtom s isInt f := by
    cases joins with
    | one =>
      rw [Store.flattenTo_of_ne (other (atoms a (List.mem_singleton_self a)))]
      exact atoms
    | many _ _ node =>
      rw [Store.flattenTo_of_node node fun f member => other (atoms f member)]
      exact atoms
  cases spelled with
  | literal literal =>
    have atom : IsAtom s isInt a := .inl ⟨_, literal⟩
    rw [Store.flattenTo_of_ne (other atom)]
    simpa using atom
  | product product _ joins =>
    exact joined joins fun f member => .inr (product.constants f member)
  | multiple product _ _ _ literal joins =>
    exact joined joins (List.forall_mem_cons.mpr ⟨.inl ⟨_, literal⟩, fun f member =>
      .inr (product.constants f member)⟩)

/-- The number of ways to choose a summand of each factor. -/
def choices (s : Store) (factors : List TermId) : ℕ :=
  (factors.map fun f => (s.summands f).length).prod

/-- There is no choice among literals and constants. -/
theorem choices_atoms {factors : List TermId} (atoms : ∀ f ∈ factors, IsAtom s isInt f) :
    choices s factors = 1 := by
  apply List.prod_eq_one
  intro n member
  obtain ⟨f, inside, rfl⟩ := List.mem_map.mp member
  obtain ⟨m, spelled⟩ := (atoms f inside).spells
  rw [summands_of_spells spelled]
  rfl

/-- Literals may be left out. -/
theorem choices_filter {factors : List TermId} (each : ∀ f ∈ factors, IsFactor s isInt f) :
    choices s (factors.filter fun f => (s.numeral? f).isNone) = choices s factors := by
  induction factors with
  | nil => rfl
  | cons f rest tail =>
    obtain ⟨here, later⟩ := List.forall_mem_cons.mp each
    have tail := tail later
    unfold choices at tail ⊢
    rw [List.filter_cons]
    split
    · rw [List.map_cons, List.map_cons, List.prod_cons, List.prod_cons, tail]
    · next literal =>
      have single : (s.summands f).length = 1 := by
        obtain atom | ⟨head, _⟩ := here
        · obtain ⟨m, spelled⟩ := atom.spells
          rw [summands_of_spells spelled]
          rfl
        · rw [Store.numeral?, head] at literal
          exact absurd rfl literal
      rw [tail, List.map_cons, List.prod_cons, single, Nat.one_mul]

/-- The order of the factors does not matter. -/
theorem choices_perm {factors others : List TermId} (perm : factors.Perm others) :
    choices s factors = choices s others := (perm.map _).prod_eq

/-- The factors of a canonical sum: the sum itself, or the factors of a monomial. -/
theorem factors_of_expands (expands : s.Expands isInt k a) (positive : 0 < k) :
    (∀ f ∈ s.flattenTo .mul (a + 1) a, IsFactor s isInt f) ∧
      choices s (s.flattenTo .mul (a + 1) a) ≤ k := by
  have single {m : Monomial} (spelled : s.Spells isInt m a) :
      (∀ f ∈ s.flattenTo .mul (a + 1) a, IsFactor s isInt f) ∧
        choices s (s.flattenTo .mul (a + 1) a) ≤ k := by
    have atoms := atoms_of_spells spelled
    exact ⟨fun f member => .inl (atoms f member), (choices_atoms atoms).trans_le positive⟩
  have known := expands
  obtain ⟨ms, canonical, few⟩ := expands
  obtain ⟨_, literal⟩ | ⟨terms, spells, joins⟩ := canonical.spelled
  · exact single (.literal literal)
  · cases joins with
    | one =>
      cases spells with
      | cons spelled => exact single spelled
    | many two inside node =>
      have head : s.op a = .add := by rw [Store.op, node]
      have alone : s.flattenTo .mul (a + 1) a = [a] :=
        Store.flattenTo_of_ne (by rw [head]; nofun) (a + 1)
      have summands : s.summands a = terms := by
        refine Store.flattenTo_of_node node (fun b member => ?_) a
        obtain ⟨m, _, spelled⟩ := exists_of_forall₂ spells.flip member
        exact spelled.op_ne_add
      rw [alone]
      refine ⟨fun f member => ?_, ?_⟩
      · rw [List.mem_singleton.mp member]
        exact .inr ⟨head, k, known, summands ▸ two⟩
      · rw [choices, List.map_singleton, List.prod_singleton]
        exact known.length_summands positive

/-- The factors of canonical sums. -/
theorem factors_of_args {ks : List ℕ}
    (each : List.Forall₂ (fun a k => 0 < k ∧ s.Expands isInt k a) args ks) :
    (∀ f ∈ s.factors args, IsFactor s isInt f) ∧ choices s (s.factors args) ≤ ks.prod := by
  induction each with
  | nil => exact ⟨nofun, Nat.le_refl _⟩
  | @cons a k args ks first _ rest =>
    obtain ⟨here, few⟩ := factors_of_expands first.2 first.1
    have split : s.factors (a :: args) = s.flattenTo .mul (a + 1) a ++ s.factors args :=
      List.flatMap_cons
    rw [split]
    refine ⟨fun f member => ?_, ?_⟩
    · obtain early | late := List.mem_append.mp member
      · exact here f early
      · exact rest.1 f late
    · rw [choices, List.map_append, List.prod_append, List.prod_cons]
      exact Nat.mul_le_mul few rest.2

end Factors

section Products

/-- Gathering factors gives a literal other than zero and the factors that are not literals, or
zero. -/
theorem gatherProduct_factors : ∀ (terms : List TermId) (c : ℚ) (others : List TermId),
    (∀ f ∈ terms, IsFactor s isInt f) → c ≠ 0 → (isInt → Rational.isIntegral c) →
    (gatherProduct isInt terms (.rational c) others).Ensures config s fun found after =>
      match found with
      | .ok (lead, factors) => after = s ∧ ∃ d, lead = .rational d ∧ d ≠ 0 ∧
          (isInt → Rational.isIntegral d) ∧
          factors = others.reverse ++ terms.filter fun f => (s.numeral? f).isNone
      | .error o => ∃ u, o = .done u ∧ after.IsLiteral isInt 0 u
  | [], c, others, _, nonzero, integral =>
    ensures_pure ⟨rfl, c, rfl, nonzero, integral, by simp⟩
  | t :: rest, c, others, factors, nonzero, integral => by
    obtain ⟨here, later⟩ := List.forall_mem_cons.mp factors
    obtain ⟨k, expands⟩ := here.expands
    have sorted : s.WellSorted ⟨fun _ _ => True, True⟩ t :=
      expands.isPolynomial.wellSorted fun _ _ => trivial
    unfold gatherProduct
    refine ensures_numeralValue?_bind sorted ?_
    cases found : s.numeral? t with
    | none =>
      refine (gatherProduct_factors rest c (t :: others) later nonzero integral).imp ?_
      intro result after _ known
      cases result with
      | error o => exact known
      | ok pair =>
        obtain ⟨same, d, value, other, whole, list⟩ := known
        refine ⟨same, d, value, other, whole, ?_⟩
        rw [list, List.reverse_cons, List.filter_cons_of_pos (by simp [found])]
        simp
    | some d =>
      obtain ⟨value, literal⟩ : ∃ value, s.IsLiteral isInt value t := by
        obtain (literal | constant) | ⟨head, _⟩ := here
        · exact literal
        · rw [constant.numeral?] at found
          cases found
        · rw [Store.numeral?, head] at found
          cases found
      obtain rfl : value = d := by
        rw [literal.numeral?] at found
        exact Option.some.inj found
      dsimp only [Option.map]
      split
      · refine ensures_bind (ensures_lift (mkNumeral_literal fun _ => Rational.isIntegral_zero)) ?_
        exact fun u after _ zero => ensures_pure ⟨u, rfl, zero⟩
      · next other =>
        have other : value ≠ 0 := by simpa [Numeral.isZero] using other
        rw [Numeral.mul_rational]
        refine ensures_evaluate?_bind ?_
        have whole (int : isInt) : Rational.isIntegral (c * value) :=
          Rational.isIntegral_mul (integral int) (literal.integral int)
        refine (gatherProduct_factors rest (c * value) others later (mul_ne_zero nonzero other)
          whole).imp ?_
        intro result after _ known
        cases result with
        | error o => exact known
        | ok pair =>
          obtain ⟨same, d, value, other, whole, list⟩ := known
          refine ⟨same, d, value, other, whole, ?_⟩
          rw [list, List.filter_cons_of_neg (by simp [found])]

/-- Terms are put in order. -/
theorem ascending_pairwise (terms : List TermId) : (ascending terms).Pairwise (· ≤ ·) := by
  have order : (terms.mergeSort fun a b => decide (a ≤ b)).Pairwise
      fun a b => decide (a ≤ b) = true := by
    apply List.pairwise_mergeSort
    · intro a b c first second
      rw [decide_eq_true_eq] at first second ⊢
      exact Nat.le_trans first second
    · intro a b
      rw [Bool.or_eq_true, decide_eq_true_eq, decide_eq_true_eq]
      exact Nat.le_total a b
  exact order.imp of_decide_eq_true

/-- The literal in front of a product, where one is not written. -/
theorem lead_literal {c : ℚ} (integral : isInt → Rational.isIntegral c) :
    Rule.Ensures (if (Numeral.rational c).asRational? = some 1 then pure []
      else (fun c => [c]) <$> mkNumber (.rational c) isInt) config s fun lead after =>
        (c = 1 ∧ lead = []) ∨ (c ≠ 1 ∧ ∃ l, lead = [l] ∧ after.IsLiteral isInt c l) := by
  split
  · next one =>
    have one : c = 1 := by simpa [Numeral.asRational?] using one
    exact ensures_pure (.inl ⟨one, rfl⟩)
  · next other =>
    have other : c ≠ 1 := by simpa [Numeral.asRational?] using other
    rw [map_eq_pure_bind]
    exact ensures_bind (mkNumber_literal integral) fun l after _ literal =>
      ensures_pure (.inr ⟨other, l, rfl, literal⟩)

/-- A literal other than zero and ordered constants are a monomial. -/
theorem mkProduct_answers {c : ℚ} {xs : List TermId} (inside : t < s.size)
    (node : s.node t = ⟨.mul, args, .number isInt⟩) (two : 2 ≤ args.length) (nonzero : c ≠ 0)
    (integral : isInt → Rational.isIntegral c) (product : s.IsProduct isInt xs) :
    (mkProduct (.rational c) xs args isInt).Ensures config s (Answers isInt 1 t) := by
  unfold mkProduct
  refine ensures_ite_bind (lead_literal integral) fun lead middle grown known => ?_
  have product := product.mono grown
  have spells {u : TermId} {last : Store} (more : middle.Extends last) (some : lead ++ xs ≠ [])
      (joins : last.Joins .mul (.number isInt) (lead ++ xs) u) : last.Expands isInt 1 u := by
    obtain ⟨rfl, rfl⟩ | ⟨other, l, rfl, literal⟩ := known
    · exact (Store.Spells.product (product.mono more) some joins).expands
    · by_cases empty : xs = []
      · subst empty
        cases joins with
        | one => exact (Store.Spells.literal (literal.mono more)).expands
        | many two => simp at two
      · exact (Store.Spells.multiple (product.mono more) empty nonzero other
          (literal.mono more) joins).expands
  have polynomials : ∀ a ∈ lead ++ xs, middle.IsPolynomial isInt a := by
    intro a member
    obtain early | late := List.mem_append.mp member
    · obtain ⟨rfl, rfl⟩ | ⟨other, l, rfl, literal⟩ := known
      · cases early
      · rw [List.mem_singleton.mp early]
        exact literal.isPolynomial
    · exact product.isPolynomial a late
  dsimp only
  split
  · next same =>
    have some : lead ++ xs ≠ [] := by
      rw [same]
      rintro rfl
      cases two
    have joins : middle.Joins .mul (.number isInt) (lead ++ xs) t := by
      rw [same]
      exact .many two (grown.lt_size inside) ((grown.node_eq inside).trans node)
    exact ensures_pure (.inl ⟨rfl, spells (.refl middle) some joins⟩)
  split
  · refine ensures_bind (ensures_lift (mkNumeral_literal fun _ => Rational.isIntegral_one)) ?_
    exact fun u after _ one => ensures_pure (.inr ⟨u, rfl, (Store.Spells.literal one).expands⟩)
  · next some =>
    have some : lead ++ xs ≠ [] := by simpa using some
    refine ensures_bind (ensures_lift (mkMul_joins some polynomials)) ?_
    exact fun u after more joins => ensures_pure (.inr ⟨u, rfl, spells more some joins⟩)

/-- A product of monomials that has not been simplified. -/
def IsRawProduct (s : Store) (isInt : Bool) (p : TermId) : Prop :=
  p < s.size ∧ ∃ args, s.node p = ⟨.mul, args, .number isInt⟩ ∧ 2 ≤ args.length ∧
    ∀ a ∈ args, ∃ m, s.Spells isInt m a

/-- A sum of at most a number of products of monomials that have not been simplified. -/
def IsRawSum (s : Store) (isInt : Bool) (n : ℕ) (q : TermId) : Prop :=
  q < s.size ∧ ∃ products, s.node q = ⟨.add, products, .number isInt⟩ ∧ 2 ≤ products.length ∧
    products.length ≤ n ∧ ∀ p ∈ products, IsRawProduct s isInt p

/-- Products that have not been simplified stay when the store grows. -/
theorem IsRawProduct.mono {after : Store} {p : TermId} (known : IsRawProduct s isInt p)
    (grown : s.Extends after) : IsRawProduct after isInt p := by
  obtain ⟨inside, args, node, two, spells⟩ := known
  refine ⟨grown.lt_size inside, args, (grown.node_eq inside).trans node, two, fun a member => ?_⟩
  obtain ⟨m, spelled⟩ := spells a member
  exact ⟨m, spelled.mono grown⟩

/-- Choosing a summand of each factor in all ways. -/
theorem length_choices {factors : List TermId} {n : ℕ} {products : List (List TermId)}
    (each : ∀ f ∈ factors, IsFactor s isInt f)
    (known : ∀ p ∈ products, n ≤ p.length ∧ ∀ a ∈ p, ∃ m, s.Spells isInt m a) :
    let all := (factors.map s.summands).foldl (fun products summands =>
      products.flatMap fun p => summands.map fun t => p ++ [t]) products
    (∀ p ∈ all, n + factors.length ≤ p.length ∧ ∀ a ∈ p, ∃ m, s.Spells isInt m a) ∧
      all.length = products.length * choices s factors := by
  induction factors generalizing products n with
  | nil => exact ⟨known, by simp [choices]⟩
  | cons f rest tail =>
    obtain ⟨here, later⟩ := List.forall_mem_cons.mp each
    obtain ⟨k, expands⟩ := here.expands
    have longer : ∀ q ∈ products.flatMap fun p => (s.summands f).map fun t => p ++ [t],
        n + 1 ≤ q.length ∧ ∀ a ∈ q, ∃ m, s.Spells isInt m a := by
      intro q member
      obtain ⟨p, inside, member⟩ := List.mem_flatMap.mp member
      obtain ⟨t, summand, rfl⟩ := List.mem_map.mp member
      refine ⟨by simpa using (known p inside).1, fun a found => ?_⟩
      obtain old | new := List.mem_append.mp found
      · exact (known p inside).2 a old
      · rw [List.mem_singleton.mp new]
        exact expands.spells_of_mem summand
    obtain ⟨all, length⟩ := tail later longer
    refine ⟨fun p member => ?_, ?_⟩
    · have known := all p member
      rw [List.length_cons]
      exact ⟨by omega, known.2⟩
    · rw [List.map_cons, List.foldl_cons, length, List.length_flatMap]
      simp [choices, Nat.mul_assoc]

/-- Multiplying out gives a sum of products of monomials. -/
theorem distribute_raw {c : ℚ} {factors : List TermId} (integral : isInt → Rational.isIntegral c)
    (each : ∀ f ∈ factors, IsFactor s isInt f) (sum : ∃ f ∈ factors, s.op f = .add) :
    (distribute (.rational c) factors isInt).Ensures config s fun q after =>
      IsRawSum after isInt (choices s factors) q := by
  unfold distribute
  refine ensures_bind (mkNumber_literal integral) fun lead middle grown literal => ?_
  refine ensures_peek_bind ?_
  have same : choices middle factors = choices s factors := by
    rw [choices, choices]
    congr 1
    refine List.map_congr_left fun f member => ?_
    rw [((each f member).mono grown).2]
  have sum : ∃ f ∈ factors, middle.op f = .add := by
    obtain ⟨f, member, head⟩ := sum
    obtain ⟨k, expands⟩ := (each f member).expands
    exact ⟨f, member, (grown.op_eq expands.isPolynomial.inside).trans head⟩
  have each : ∀ f ∈ factors, IsFactor middle isInt f := fun f member =>
    ((each f member).mono grown).1
  have several : 2 ≤ choices middle factors := by
    obtain ⟨f, member, head⟩ := sum
    have positive : ∀ n ∈ factors.map fun f => (middle.summands f).length, 0 < n := by
      intro n inside
      obtain ⟨g, other, rfl⟩ := List.mem_map.mp inside
      obtain atom | ⟨_, _, _, two⟩ := each g other
      · obtain ⟨m, spelled⟩ := atom.spells
        simp [summands_of_spells spelled]
      · omega
    have two : 2 ≤ (middle.summands f).length := by
      obtain atom | ⟨_, _, _, two⟩ := each f member
      · obtain ⟨m, spelled⟩ := atom.spells
        exact absurd head spelled.op_ne_add
      · exact two
    exact two.trans (Nat.le_of_dvd (List.prod_pos positive)
      (List.dvd_prod (List.mem_map_of_mem member)))
  have some : 1 ≤ factors.length := by
    obtain ⟨f, member, _⟩ := sum
    exact List.length_pos_of_mem member
  have first : ∀ p ∈ [[lead]], 1 ≤ p.length ∧ ∀ a ∈ p, ∃ m, middle.Spells isInt m a := by
    simpa using ⟨_, Store.Spells.literal literal⟩
  obtain ⟨all, length⟩ := length_choices each first
  dsimp only at all length ⊢
  generalize List.foldl _ [[lead]] _ = products at all length ⊢
  have lasting : ∀ (p : List TermId) (t : TermId) (before after : Store), before.Extends after →
      IsRawProduct before isInt t → IsRawProduct after isInt t :=
    fun _ _ _ _ more known => known.mono more
  have built : ∀ p ∈ products, ∀ now, middle.Extends now →
      (liftM (mkMul p) : Rule TermId).Ensures config now fun t after =>
        IsRawProduct after isInt t := by
    intro p member now more
    obtain ⟨long, spells⟩ := all p member
    have long : 2 ≤ p.length := by omega
    have filled : p ≠ [] := by
      rintro rfl
      cases long
    have polynomials : ∀ a ∈ p, now.IsPolynomial isInt a := by
      intro a inside
      obtain ⟨m, spelled⟩ := spells a inside
      exact (spelled.mono more).isPolynomial
    refine ensures_lift ((mkMul_joins filled polynomials).imp fun t after most joins => ?_)
    cases joins with
    | one => simp at long
    | many _ inside node =>
      refine ⟨inside, p, node, long, fun a member => ?_⟩
      obtain ⟨m, spelled⟩ := spells a member
      exact ⟨m, (spelled.mono more).mono most⟩
  refine ensures_bind (Rule.ensures_mapM lasting products built) fun terms after _ raw => ?_
  have raw : terms.length = choices s factors ∧ ∀ p ∈ terms, IsRawProduct after isInt p := by
    refine ⟨?_, fun p member => ?_⟩
    · rw [← raw.length_eq, length, same, List.length_singleton, Nat.one_mul]
    · obtain ⟨_, _, known⟩ := exists_of_forall₂ raw.flip member
      exact known
  have many : 2 ≤ terms.length := by omega
  have filled : terms ≠ [] := by
    rintro rfl
    cases many
  have polynomials : ∀ p ∈ terms, after.IsPolynomial isInt p := by
    intro p member
    obtain ⟨inside, args, node, two, spells⟩ := raw.2 p member
    refine Store.Joins.isPolynomial (.many two inside node) (.inr rfl) fun a member => ?_
    obtain ⟨m, spelled⟩ := spells a member
    exact spelled.isPolynomial
  refine ensures_lift ((mkAdd_joins filled polynomials).imp fun q last more joins => ?_)
  cases joins with
  | one => simp at many
  | many _ inside node =>
    exact ⟨inside, terms, node, many, raw.1.le, fun p member => (raw.2 p member).mono more⟩

/-- A product of canonical terms becomes a monomial, or a sum of products of monomials if one of
the factors is a sum. -/
theorem reduceMul_answers (inside : t < s.size) (node : s.node t = ⟨.mul, args, .number isInt⟩)
    (two : 2 ≤ args.length) (each : ∀ f ∈ s.factors args, IsFactor s isInt f) :
    (reduceMul t args).Ensures .canonizing s fun o after => Answers isInt 1 t o after ∨
      (∃ f ∈ s.factors args, s.op f = .add) ∧
        ∃ q, o = .revisit 2 q ∧ IsRawSum after isInt (choices s (s.factors args)) q := by
  have sort : s.isInt t = isInt := by
    rw [Store.isInt, Store.sortOf, node]
    cases isInt <;> rfl
  unfold reduceMul
  refine ensures_peek_bind ?_
  refine ensures_peek_bind ?_
  rw [sort]
  refine ensures_bind (gatherProduct_factors (s.factors args) 1 [] each one_ne_zero
    fun _ => Rational.isIntegral_one) fun found middle _ result => ?_
  cases found with
  | error o =>
    obtain ⟨u, rfl, zero⟩ := result
    exact ensures_pure (.inl (.inr ⟨u, rfl, (Store.Spells.literal zero).expands⟩))
  | ok pair =>
    obtain ⟨lead, factors⟩ := pair
    obtain ⟨same, c, value, nonzero, integral, list⟩ := result
    subst value
    obtain rfl : s = middle := same.symm
    rw [List.reverse_nil, List.nil_append] at list
    have order := ascending_perm factors
    have among : ∀ f ∈ ascending factors, f ∈ s.factors args ∧ s.numeral? f = none := by
      intro f member
      have inside := order.mem_iff.mp member
      rw [list, List.mem_filter] at inside
      exact ⟨inside.1, by simpa using inside.2⟩
    have few : choices s (ascending factors) = choices s (s.factors args) := by
      rw [choices_perm order, list, choices_filter each]
    have sorted := ascending_pairwise factors
    dsimp only
    generalize ascending factors = xs at among few sorted ⊢
    refine Rule.ensures_read_bind ?_
    have kept : Rule.Ensures (if SimplifierConfig.canonizing.mulToPower then groupPowers xs
        else pure xs) .canonizing s fun ys after => ys = xs ∧ after = s := ensures_pure ⟨rfl, rfl⟩
    refine ensures_ite_bind kept fun ys middle _ known => ?_
    obtain ⟨rfl, rfl⟩ := known
    refine ensures_peek_bind ?_
    refine Rule.ensures_read_bind ?_
    split
    · next sums =>
      have sum : ∃ f ∈ ys, middle.op f = .add := by
        simpa [SimplifierConfig.canonizing] using sums
      have factors : ∀ f ∈ ys, IsFactor middle isInt f := fun f member => each f (among f member).1
      refine ensures_bind (distribute_raw integral factors sum) fun q after _ raw => ?_
      obtain ⟨f, member, head⟩ := sum
      exact ensures_pure (.inr ⟨⟨f, (among f member).1, head⟩, q, rfl, few ▸ raw⟩)
    · next none =>
      have none : ∀ f ∈ ys, middle.op f ≠ .add := by
        simpa [SimplifierConfig.canonizing] using none
      have product : middle.IsProduct isInt ys := by
        refine ⟨fun f member => ?_, sorted⟩
        obtain ((⟨c, literal⟩ | constant) | ⟨head, _⟩) := each f (among f member).1
        · have other := (among f member).2
          rw [literal.numeral?] at other
          cases other
        · exact constant
        · exact absurd head (none f member)
      have answers : (mkProduct (.rational c) ys args isInt).Ensures .canonizing middle
          (Answers isInt 1 t) := mkProduct_answers inside node two nonzero integral product
      have final : (mkProduct (.rational c) ys args isInt).Ensures .canonizing middle fun o after =>
          Answers isInt 1 t o after ∨ (∃ f ∈ middle.factors args, middle.op f = .add) ∧
            ∃ q, o = .revisit 2 q ∧
              IsRawSum after isInt (choices middle (middle.factors args)) q :=
        answers.imp fun _ _ _ answer => .inl answer
      split
      · next f _ _ =>
        refine ensures_peek_bind ?_
        split
        · next summands view =>
          exact absurd (congrArg Prod.fst view) (none f (List.mem_singleton_self f))
        · exact final
      · exact final

end Products

end Arithmetic

end Stratagem
