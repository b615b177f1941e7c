import Stratagem.Proofs.Rewriting.Rule
import Stratagem.Proofs.Rewriting.Monomial
import Stratagem.Proofs.Term.Polynomial

/-!
# Canonical sums of monomials

A canonical term is a sum of monomials with coefficients other than zero, ordered by their power
products. Power products are ordered lists of constants, coefficients stand first and are left out
if they are one, and a literal is the monomial of the empty power product. Canonical terms of one
store with the same polynomial are the same term: the polynomial determines the monomials with their
order, and the store has one term for each node.
-/
namespace Stratagem

namespace Monomials

variable {m : Monomials}

/-- Ordering the entries leaves at most as many. -/
theorem length_sort_le : m.sort.toList.length ≤ m.size :=
  m.sort_perm.length_eq.le.trans (List.length_filter_le _ _)

/-- Dropping zeros leaves at most as many entries. -/
theorem size_retainNonzero_le : m.retainNonzero.size ≤ m.size := List.length_filter_le _ _

/-- Adding a monomial adds at most one entry. -/
theorem size_add_le (m : Monomials) (c : ℚ) (product : PowerProduct) :
    (m.add c product).size ≤ m.size + 1 := by
  show (m.add c product).toList.length ≤ m.toList.length + 1
  obtain ⟨before, d, after, whole, _, added⟩ | ⟨_, added⟩ := m.add_cases c product
  · rw [whole, added]
    simp
  · rw [added]
    simp

end Monomials

namespace Store

variable {s after : Store} {isInt : Bool} {c : ℚ} {t u x : TermId} {xs args : List TermId}
  {op : Op} {sort : TermSort} {m : Monomial}

/-- A term is a constant of a sort of numbers. -/
structure IsConstant (s : Store) (isInt : Bool) (x : TermId) : Prop where
  /-- The constant is in the store. -/
  inside : x < s.size
  /-- It has a name. -/
  node : ∃ name, s.node x = ⟨.var name, [], .number isInt⟩

/-- The node of a rational literal of a sort of numbers. -/
def literalNode (isInt : Bool) (c : ℚ) : Node :=
  if isInt then ⟨.int c.num, [], .int⟩ else ⟨.real c, [], .real⟩

/-- A term is a rational literal of a sort of numbers. -/
structure IsLiteral (s : Store) (isInt : Bool) (c : ℚ) (t : TermId) : Prop where
  /-- The literal is in the store. -/
  inside : t < s.size
  /-- It is an integer if the sort is that of integers. -/
  integral : isInt → Rational.isIntegral c
  /-- The node says so. -/
  node : s.node t = literalNode isInt c

/-- A term is an application to several terms, or the only one of them. -/
inductive Joins (s : Store) (op : Op) (sort : TermSort) : List TermId → TermId → Prop
  /-- The only term. -/
  | one (t : TermId) : Joins s op sort [t] t
  /-- The application. -/
  | many {args : List TermId} {t : TermId} (two : 2 ≤ args.length) (inside : t < s.size)
    (node : s.node t = ⟨op, args, sort⟩) : Joins s op sort args t

/-- A power product is an ordered list of constants. -/
structure IsProduct (s : Store) (isInt : Bool) (xs : PowerProduct) : Prop where
  /-- The factors are constants. -/
  constants : ∀ x ∈ xs, s.IsConstant isInt x
  /-- They are in order. -/
  ascending : xs.Pairwise (· ≤ ·)

/-- A term spells out a monomial. -/
inductive Spells (s : Store) (isInt : Bool) : Monomial → TermId → Prop
  /-- A literal is the coefficient of the empty power product. -/
  | literal {c : ℚ} {t : TermId} (literal : s.IsLiteral isInt c t) : Spells s isInt ⟨c, []⟩ t
  /-- The coefficient one is left out. -/
  | product {xs : PowerProduct} {t : TermId} (product : s.IsProduct isInt xs) (some : xs ≠ [])
    (joins : s.Joins .mul (.number isInt) xs t) : Spells s isInt ⟨1, xs⟩ t
  /-- Other coefficients stand first. -/
  | multiple {c : ℚ} {l : TermId} {xs : PowerProduct} {t : TermId}
    (product : s.IsProduct isInt xs) (some : xs ≠ []) (nonzero : c ≠ 0) (other : c ≠ 1)
    (literal : s.IsLiteral isInt c l) (joins : s.Joins .mul (.number isInt) (l :: xs) t) :
    Spells s isInt ⟨c, xs⟩ t

/-- A term is the canonical sum of monomials. -/
structure Canonical (s : Store) (isInt : Bool) (ms : List Monomial) (t : TermId) : Prop where
  /-- No coefficient is zero. -/
  nonzero : ∀ m ∈ ms, m.coeff ≠ 0
  /-- The monomials are in order. -/
  increasing : ms.Pairwise (·.product < ·.product)
  /-- The term is their sum; zero if there are none. -/
  spelled : (ms = [] ∧ s.IsLiteral isInt 0 t) ∨
    ∃ terms, List.Forall₂ (s.Spells isInt) ms terms ∧ s.Joins .add (.number isInt) terms t

section Growth

/-- Constants stay when the store grows. -/
theorem IsConstant.mono (known : s.IsConstant isInt x) (grown : s.Extends after) :
    after.IsConstant isInt x := by
  obtain ⟨name, node⟩ := known.node
  exact ⟨grown.lt_size known.inside, name, (grown.node_eq known.inside).trans node⟩

/-- Literals stay when the store grows. -/
theorem IsLiteral.mono (known : s.IsLiteral isInt c t) (grown : s.Extends after) :
    after.IsLiteral isInt c t :=
  ⟨grown.lt_size known.inside, known.integral, (grown.node_eq known.inside).trans known.node⟩

/-- Applications stay when the store grows. -/
theorem Joins.mono (known : s.Joins op sort args t) (grown : s.Extends after) :
    after.Joins op sort args t := by
  cases known with
  | one => exact .one t
  | many two inside node =>
    exact .many two (grown.lt_size inside) ((grown.node_eq inside).trans node)

/-- Power products stay when the store grows. -/
theorem IsProduct.mono (known : s.IsProduct isInt xs) (grown : s.Extends after) :
    after.IsProduct isInt xs :=
  ⟨fun x member => (known.constants x member).mono grown, known.ascending⟩

/-- Monomials stay when the store grows. -/
theorem Spells.mono (known : s.Spells isInt m t) (grown : s.Extends after) :
    after.Spells isInt m t := by
  cases known with
  | literal literal => exact .literal (literal.mono grown)
  | product product some joins => exact .product (product.mono grown) some (joins.mono grown)
  | multiple product some nonzero other literal joins =>
    exact .multiple (product.mono grown) some nonzero other (literal.mono grown) (joins.mono grown)

/-- Canonical terms stay when the store grows. -/
theorem Canonical.mono {ms : List Monomial} (known : s.Canonical isInt ms t)
    (grown : s.Extends after) : after.Canonical isInt ms t where
  nonzero := known.nonzero
  increasing := known.increasing
  spelled := by
    obtain ⟨none, literal⟩ | ⟨terms, spells, joins⟩ := known.spelled
    · exact .inl ⟨none, literal.mono grown⟩
    · exact .inr ⟨terms, spells.imp fun _ _ spelled => spelled.mono grown, joins.mono grown⟩

end Growth

section Reading

/-- Head and arguments of a constant. -/
theorem IsConstant.view (known : s.IsConstant isInt x) : ∃ name, s.view x = (.var name, []) := by
  obtain ⟨name, node⟩ := known.node
  exact ⟨name, by rw [Store.view, node]⟩

/-- A constant is not a literal. -/
theorem IsConstant.numeral? (known : s.IsConstant isInt x) : s.numeral? x = none := by
  obtain ⟨name, node⟩ := known.node
  rw [Store.numeral?, Store.op, node]

/-- Head and arguments of a literal. -/
theorem IsLiteral.view (known : s.IsLiteral isInt c t) :
    s.view t = (if isInt then .int c.num else .real c, []) := by
  rw [Store.view, known.node]
  cases isInt <;> rfl

/-- The value of a literal. -/
theorem IsLiteral.numeral? (known : s.IsLiteral isInt c t) : s.numeral? t = some c := by
  rw [Store.numeral?, Store.op, known.node]
  cases isInt with
  | false => rfl
  | true => exact congrArg some (Terms.num_of_isIntegral (known.integral rfl))

/-- A constant is a polynomial. -/
theorem IsConstant.isPolynomial (known : s.IsConstant isInt x) : s.IsPolynomial isInt x := by
  obtain ⟨name, node⟩ := known.node
  refine .intro known.inside (by rw [Store.sortOf, node]) ?_ (by simp [Store.args, node])
  rw [Store.op, Store.args, node]
  trivial

/-- A literal is a polynomial. -/
theorem IsLiteral.isPolynomial (known : s.IsLiteral isInt c t) : s.IsPolynomial isInt t := by
  have node := known.node
  cases isInt with
  | false =>
    refine .intro known.inside (by rw [Store.sortOf, node]; rfl) ?_
      (by simp [Store.args, node, literalNode])
    rw [Store.op, Store.args, node]
    rfl
  | true =>
    refine .intro known.inside (by rw [Store.sortOf, node]; rfl) ?_
      (by simp [Store.args, node, literalNode])
    rw [Store.op, Store.args, node]
    rfl

/-- A sum or product of polynomials is a polynomial. -/
theorem Joins.isPolynomial (known : s.Joins op (.number isInt) args t)
    (either : op = .add ∨ op = .mul) (each : ∀ a ∈ args, s.IsPolynomial isInt a) :
    s.IsPolynomial isInt t := by
  cases known with
  | one => exact each t (List.mem_singleton_self t)
  | many two inside node =>
    refine .intro inside (by rw [Store.sortOf, node]) ?_ (by rwa [Store.args, node])
    rw [Store.op, Store.args, node]
    obtain rfl | rfl := either <;> exact two

/-- The factors of a power product are polynomials. -/
theorem IsProduct.isPolynomial (known : s.IsProduct isInt xs) :
    ∀ x ∈ xs, s.IsPolynomial isInt x := fun x member => (known.constants x member).isPolynomial

/-- A monomial is a polynomial. -/
theorem Spells.isPolynomial (known : s.Spells isInt m t) : s.IsPolynomial isInt t := by
  cases known with
  | literal literal => exact literal.isPolynomial
  | product product _ joins => exact joins.isPolynomial (.inr rfl) product.isPolynomial
  | multiple product _ _ _ literal joins =>
    exact joins.isPolynomial (.inr rfl)
      (List.forall_mem_cons.mpr ⟨literal.isPolynomial, product.isPolynomial⟩)

/-- A canonical term is a polynomial. -/
theorem Canonical.isPolynomial {ms : List Monomial} (known : s.Canonical isInt ms t) :
    s.IsPolynomial isInt t := by
  obtain ⟨_, literal⟩ | ⟨terms, spells, joins⟩ := known.spelled
  · exact literal.isPolynomial
  · refine joins.isPolynomial (.inl rfl) fun a member => ?_
    obtain ⟨m, _, spelled⟩ := exists_of_forall₂ spells.flip member
    exact spelled.isPolynomial

/-- The head of a monomial is not a sum. -/
theorem Spells.op_ne_add (known : s.Spells isInt m t) : s.op t ≠ .add := by
  have constant (x : TermId) (known : s.IsConstant isInt x) : s.op x ≠ .add := by
    obtain ⟨name, node⟩ := known.node
    rw [Store.op, node]
    simp
  cases known with
  | literal literal =>
    rw [Store.op, literal.node]
    cases isInt <;> simp [literalNode]
  | product product _ joins =>
    cases joins with
    | one => exact constant t (product.constants t (List.mem_singleton_self t))
    | many _ _ node =>
      rw [Store.op, node]
      simp
  | multiple product some _ _ _ joins =>
    cases joins with
    | one => exact absurd rfl some
    | many _ _ node =>
      rw [Store.op, node]
      simp

/-- A monomial is read off the term that spells it out, unless it is a literal. -/
theorem Spells.monomial_eq (known : s.Spells isInt m t) (some : m.product ≠ []) :
    s.numeral? t = none ∧ s.monomial t = m := by
  cases known with
  | literal => exact absurd rfl some
  | @product xs _ product _ joins =>
    cases joins with
    | one =>
      have constant := product.constants t (List.mem_singleton_self t)
      obtain ⟨name, view⟩ := constant.view
      refine ⟨constant.numeral?, ?_⟩
      rw [Store.monomial, view]
    | many two _ node =>
      refine ⟨by rw [Store.numeral?, Store.op, node], ?_⟩
      rw [Store.monomial, Store.view, node]
      cases xs with
      | nil => exact absurd rfl some
      | cons x rest =>
        dsimp only
        rw [(product.constants x (List.mem_cons_self ..)).numeral?]
  | multiple product _ _ _ literal joins =>
    cases joins with
    | one => exact absurd rfl some
    | many two _ node =>
      refine ⟨by rw [Store.numeral?, Store.op, node], ?_⟩
      rw [Store.monomial, Store.view, node]
      dsimp only
      rw [literal.numeral?]

/-- A term whose head is another one is not taken apart. -/
theorem flattenTo_of_ne {head : Op} (other : s.op t ≠ head) (depth : ℕ) :
    s.flattenTo head depth t = [t] := by
  cases depth with
  | zero => rfl
  | succ depth => rw [flattenTo, if_neg other]

/-- An application to terms with other heads is taken apart into these. -/
theorem flattenTo_of_node {head : Op} (node : s.node t = ⟨head, args, sort⟩)
    (others : ∀ a ∈ args, s.op a ≠ head) (depth : ℕ) : s.flattenTo head (depth + 1) t = args := by
  have arguments : s.args t = args := by rw [Store.args, node]
  rw [flattenTo, if_pos (by rw [Store.op, node]), arguments]
  have each : ∀ a ∈ args, s.flattenTo head depth a = [a] := fun a member =>
    flattenTo_of_ne (others a member) depth
  rw [List.flatMap_def, List.map_congr_left each, ← List.flatMap_def]
  exact List.flatMap_singleton' args

/-- A term is taken apart into the same terms when the store grows. -/
theorem Extends.flattenTo_eq (grown : s.Extends after) (head : Op) (depth : ℕ)
    (inside : t < s.size) : after.flattenTo head depth t = s.flattenTo head depth t := by
  induction depth generalizing t with
  | zero => rfl
  | succ depth deeper =>
    rw [flattenTo, flattenTo, grown.op_eq inside, grown.args_eq inside]
    have each : ∀ a ∈ s.args t, after.flattenTo head depth a = s.flattenTo head depth a :=
      fun a member => deeper ((lt_of_mem_args member).trans inside)
    rw [List.flatMap_def, List.map_congr_left each, ← List.flatMap_def]

/-- The summands of a canonical term spell out its monomials, or zero if there are none. -/
theorem Canonical.summands {ms : List Monomial} (known : s.Canonical isInt ms t) :
    List.Forall₂ (s.Spells isInt) (if ms = [] then [⟨0, []⟩] else ms) (s.summands t) := by
  obtain ⟨none, literal⟩ | ⟨terms, spells, joins⟩ := known.spelled
  · have alone : s.summands t = [t] :=
      flattenTo_of_ne (Spells.literal literal).op_ne_add (t + 1)
    rw [if_pos none, alone]
    exact .cons (.literal literal) .nil
  · have others : ∀ a ∈ terms, s.op a ≠ .add := by
      intro a member
      obtain ⟨m, _, spelled⟩ := exists_of_forall₂ spells.flip member
      exact spelled.op_ne_add
    have taken : s.summands t = terms := by
      cases joins with
      | one => exact flattenTo_of_ne (others t (List.mem_singleton_self t)) (t + 1)
      | many _ _ node => exact flattenTo_of_node node others t
    have some : ms ≠ [] := by
      rintro rfl
      cases spells
      cases joins with
      | many two => cases two
    rw [if_neg some, taken]
    exact spells

end Reading

section Uniqueness

/-- There is one literal of a value. -/
theorem IsLiteral.unique (first : s.IsLiteral isInt c t) (second : s.IsLiteral isInt c u) : t = u :=
  eq_of_node_eq first.inside second.inside (first.node.trans second.node.symm)

/-- There is one application to given terms. -/
theorem Joins.unique (first : s.Joins op sort args t) (second : s.Joins op sort args u) :
    t = u := by
  cases first with
  | one =>
    cases second with
    | one => rfl
    | many two => simp at two
  | many two inside node =>
    cases second with
    | one => simp at two
    | many _ inside' node' => exact eq_of_node_eq inside inside' (node.trans node'.symm)

/-- There is one term for a monomial. -/
theorem Spells.unique (first : s.Spells isInt m t) (second : s.Spells isInt m u) : t = u := by
  cases first with
  | literal literal =>
    cases second with
    | literal literal' => exact literal.unique literal'
    | product _ some => exact absurd rfl some
    | multiple _ some => exact absurd rfl some
  | product _ some joins =>
    cases second with
    | literal => exact absurd rfl some
    | product _ _ joins' => exact joins.unique joins'
    | multiple _ _ _ other => exact absurd rfl other
  | multiple _ some _ other literal joins =>
    cases second with
    | literal => exact absurd rfl some
    | product => exact absurd rfl other
    | multiple _ _ _ _ literal' joins' =>
      obtain rfl := literal.unique literal'
      exact joins.unique joins'

/-- There is one canonical term for monomials. -/
theorem Canonical.unique {ms : List Monomial} (first : s.Canonical isInt ms t)
    (second : s.Canonical isInt ms u) : t = u := by
  have some {terms : List TermId} {t : TermId} (spells : List.Forall₂ (s.Spells isInt) [] terms)
      (joins : s.Joins .add (.number isInt) terms t) : False := by
    cases spells
    cases joins with
    | many two => cases two
  obtain ⟨rfl, literal⟩ | ⟨terms, spells, joins⟩ := first.spelled
  · obtain ⟨_, literal'⟩ | ⟨terms, spells, joins⟩ := second.spelled
    · exact literal.unique literal'
    · exact (some spells joins).elim
  · obtain ⟨rfl, _⟩ | ⟨terms', spells', joins'⟩ := second.spelled
    · exact (some spells joins).elim
    · have same : terms = terms' := by
        clear joins joins' first second
        induction spells generalizing terms' with
        | nil =>
          cases spells'
          rfl
        | cons spelled _ rest =>
          cases spells' with
          | cons spelled' others => rw [spelled.unique spelled', rest _ others]
      subst same
      exact joins.unique joins'

/-- The name of a constant. -/
def nameOf (s : Store) (x : TermId) : String := (s.varName? x).getD ""

/-- Constants of one sort with one name are the same. -/
theorem IsConstant.eq_of_name {y : TermId} (first : s.IsConstant isInt x)
    (second : s.IsConstant isInt y) (same : s.nameOf x = s.nameOf y) : x = y := by
  obtain ⟨name, node⟩ := first.node
  obtain ⟨other, node'⟩ := second.node
  have left : s.nameOf x = name := by rw [nameOf, varName?, Store.op, node]; rfl
  have right : s.nameOf y = other := by rw [nameOf, varName?, Store.op, node']; rfl
  apply eq_of_node_eq first.inside second.inside
  rw [node, node', ← left, ← right, same]

/-- The exponents of the names in a power product. -/
noncomputable def exponents (s : Store) (xs : PowerProduct) : String →₀ ℕ :=
  (xs.map fun x => Finsupp.single (s.nameOf x) 1).sum

/-- The exponent of a name is the number of constants of this name. -/
theorem exponents_apply (s : Store) (xs : PowerProduct) (name : String) :
    s.exponents xs name = xs.countP fun x => s.nameOf x = name := by
  induction xs with
  | nil => rfl
  | cons x rest tail =>
    rw [exponents, List.map_cons, List.sum_cons, Finsupp.add_apply, List.countP_cons]
    have later : (rest.map fun x => Finsupp.single (s.nameOf x) 1).sum name =
        rest.countP fun x => s.nameOf x = name := tail
    rw [later, Finsupp.single_apply, Nat.add_comm]
    simp

/-- A power product is determined by its exponents. -/
theorem IsProduct.eq_of_exponents {ys : PowerProduct} (first : s.IsProduct isInt xs)
    (second : s.IsProduct isInt ys) (same : s.exponents xs = s.exponents ys) : xs = ys := by
  have counts (zs : PowerProduct) (known : s.IsProduct isInt zs) (x : TermId)
      (constant : s.IsConstant isInt x) : zs.count x = s.exponents zs (s.nameOf x) := by
    rw [exponents_apply, List.count]
    refine List.countP_congr fun y member => ?_
    simp only [beq_iff_eq, decide_eq_true_eq]
    constructor
    · rintro rfl
      rfl
    · exact (known.constants y member).eq_of_name constant
  have perm : xs.Perm ys := by
    refine List.perm_iff_count.mpr fun x => ?_
    by_cases constant : s.IsConstant isInt x
    · rw [counts xs first x constant, counts ys second x constant, same]
    · rw [List.count_eq_zero_of_not_mem fun member => constant (first.constants x member),
        List.count_eq_zero_of_not_mem fun member => constant (second.constants x member)]
  exact perm.eq_of_pairwise (fun a b _ _ => Nat.le_antisymm) first.ascending second.ascending

/-- The polynomial of a constant is its name. -/
theorem IsConstant.polynomial (known : s.IsConstant isInt x) :
    s.polynomial x = .monomial (Finsupp.single (s.nameOf x) 1) 1 := by
  obtain ⟨name, node⟩ := known.node
  have named : s.nameOf x = name := by rw [nameOf, varName?, Store.op, node]; rfl
  have whole : s.polynomial x = (s.op x).polynomial ((s.args x).map s.polynomial) :=
    s.fold_eq Op.polynomial x
  rw [whole, named, Store.op, node]
  rfl

/-- The polynomial of a literal is constant. -/
theorem IsLiteral.polynomial (known : s.IsLiteral isInt c t) : s.polynomial t = .C c := by
  have whole : s.polynomial t = (s.op t).polynomial ((s.args t).map s.polynomial) :=
    s.fold_eq Op.polynomial t
  rw [whole, Store.op, known.node]
  cases isInt with
  | false => rfl
  | true =>
    show MvPolynomial.C ((c.num : ℤ) : ℚ) = _
    rw [Terms.num_of_isIntegral (known.integral rfl)]

/-- The polynomial of a product. -/
theorem Joins.polynomial_mul (known : s.Joins .mul sort args t) :
    s.polynomial t = (args.map s.polynomial).prod := by
  cases known with
  | one => simp
  | many _ _ node =>
    have whole : s.polynomial t = (s.op t).polynomial ((s.args t).map s.polynomial) :=
      s.fold_eq Op.polynomial t
    rw [whole, Store.op, Store.args, node]
    rfl

/-- The polynomial of a sum. -/
theorem Joins.polynomial_add (known : s.Joins .add sort args t) :
    s.polynomial t = (args.map s.polynomial).sum := by
  cases known with
  | one => simp
  | many _ _ node =>
    have whole : s.polynomial t = (s.op t).polynomial ((s.args t).map s.polynomial) :=
      s.fold_eq Op.polynomial t
    rw [whole, Store.op, Store.args, node]
    rfl

/-- The polynomial of a power product. -/
theorem IsProduct.polynomial (known : ∀ x ∈ xs, s.IsConstant isInt x) :
    (xs.map s.polynomial).prod = .monomial (s.exponents xs) 1 := by
  induction xs with
  | nil => rfl
  | cons x rest tail =>
    obtain ⟨here, later⟩ := List.forall_mem_cons.mp known
    rw [List.map_cons, List.prod_cons, here.polynomial, tail later, MvPolynomial.monomial_mul,
      one_mul]
    rfl

/-- The polynomial of a monomial. -/
theorem Spells.polynomial (known : s.Spells isInt m t) :
    s.IsProduct isInt m.product ∧ s.polynomial t = .monomial (s.exponents m.product) m.coeff := by
  cases known with
  | literal literal =>
    refine ⟨⟨nofun, .nil⟩, ?_⟩
    rw [literal.polynomial]
    rfl
  | product product _ joins =>
    refine ⟨product, ?_⟩
    rw [joins.polynomial_mul, IsProduct.polynomial product.constants]
  | multiple product _ _ _ literal joins =>
    refine ⟨product, ?_⟩
    rw [joins.polynomial_mul, List.map_cons, List.prod_cons, literal.polynomial,
      IsProduct.polynomial product.constants, MvPolynomial.C_mul_monomial, mul_one]

/-- The polynomial of monomials. -/
noncomputable def polynomialOf (s : Store) (ms : List Monomial) : MvPolynomial String ℚ :=
  (ms.map fun m => MvPolynomial.monomial (s.exponents m.product) m.coeff).sum

/-- The polynomial of a canonical term. -/
theorem Canonical.polynomial {ms : List Monomial} (known : s.Canonical isInt ms t) :
    (∀ m ∈ ms, s.IsProduct isInt m.product) ∧ s.polynomial t = s.polynomialOf ms := by
  obtain ⟨rfl, literal⟩ | ⟨terms, spells, joins⟩ := known.spelled
  · refine ⟨nofun, ?_⟩
    rw [literal.polynomial, MvPolynomial.C_0]
    rfl
  · rw [joins.polynomial_add]
    clear joins known
    induction spells with
    | nil => exact ⟨nofun, rfl⟩
    | @cons m a ms terms spelled _ rest =>
      refine ⟨List.forall_mem_cons.mpr ⟨spelled.polynomial.1, rest.1⟩, ?_⟩
      rw [List.map_cons, List.sum_cons, spelled.polynomial.2, rest.2]
      rfl

/-- No monomial has the exponents of another power product. -/
theorem coeff_polynomialOf_of_forall {ms : List Monomial} {e : String →₀ ℕ}
    (others : ∀ m ∈ ms, s.exponents m.product ≠ e) : (s.polynomialOf ms).coeff e = 0 := by
  induction ms with
  | nil => rfl
  | cons m rest tail =>
    obtain ⟨here, later⟩ := List.forall_mem_cons.mp others
    rw [polynomialOf, List.map_cons, List.sum_cons, MvPolynomial.coeff_add,
      MvPolynomial.coeff_monomial, if_neg here, zero_add]
    exact tail later

/-- The coefficients of the polynomial are those of the monomials. -/
theorem coeff_polynomialOf {ms : List Monomial}
    (products : ∀ m ∈ ms, s.IsProduct isInt m.product)
    (increasing : ms.Pairwise (·.product < ·.product)) (member : m ∈ ms) :
    (s.polynomialOf ms).coeff (s.exponents m.product) = m.coeff := by
  induction ms with
  | nil => cases member
  | cons n rest tail =>
    obtain ⟨here, later⟩ := List.forall_mem_cons.mp products
    obtain ⟨below, order⟩ := List.pairwise_cons.mp increasing
    have split : s.polynomialOf (n :: rest) =
        .monomial (s.exponents n.product) n.coeff + s.polynomialOf rest := List.sum_cons
    rw [split, MvPolynomial.coeff_add, MvPolynomial.coeff_monomial]
    obtain rfl | inside := List.mem_cons.mp member
    · rw [if_pos rfl, coeff_polynomialOf_of_forall, add_zero]
      intro k other same
      have equal := (later k other).eq_of_exponents here same
      exact absurd (below k other) (equal ▸ lt_irrefl _)
    · have different : s.exponents n.product ≠ s.exponents m.product := by
        intro same
        have equal := here.eq_of_exponents (later m inside) same
        exact absurd (below m inside) (equal ▸ lt_irrefl _)
      rw [if_neg different, zero_add]
      exact tail later order inside

/-- Canonical terms with the same polynomial have the same monomials. -/
theorem Canonical.monomials_eq {ms ns : List Monomial} (first : s.Canonical isInt ms t)
    (second : s.Canonical isInt ns u) (same : s.polynomial t = s.polynomial u) : ms = ns := by
  have within {ms ns : List Monomial} {t u : TermId} (first : s.Canonical isInt ms t)
      (second : s.Canonical isInt ns u) (same : s.polynomial t = s.polynomial u) (m : Monomial)
      (member : m ∈ ms) : m ∈ ns := by
    have products := first.polynomial.1
    have others := second.polynomial.1
    rw [first.polynomial.2, second.polynomial.2] at same
    have coeff := coeff_polynomialOf products first.increasing member
    by_contra absent
    have none : ∀ n ∈ ns, s.exponents n.product ≠ s.exponents m.product := by
      intro n inside equal
      have product := (others n inside).eq_of_exponents (products m member) equal
      have value := coeff_polynomialOf others second.increasing inside
      rw [equal, ← same, coeff] at value
      obtain ⟨c, xs⟩ := m
      obtain ⟨d, ys⟩ := n
      dsimp only at product value
      subst product value
      exact absent inside
    rw [same, coeff_polynomialOf_of_forall none] at coeff
    exact first.nonzero m member coeff.symm
  have distinct {ms : List Monomial} (order : ms.Pairwise (·.product < ·.product)) :
      ms.Nodup := by
    apply order.imp
    rintro a _ less rfl
    exact lt_irrefl _ less
  have perm : ms.Perm ns := (List.perm_ext_iff_of_nodup (distinct first.increasing)
    (distinct second.increasing)).mpr fun m => ⟨within first second same m,
      within second first same.symm m⟩
  exact perm.eq_of_pairwise (fun a b _ _ less more => absurd (less.trans more) (lt_irrefl _))
    first.increasing second.increasing

/-- Canonical terms with the same polynomial are the same. -/
theorem Canonical.eq_of_polynomial {ms ns : List Monomial} (first : s.Canonical isInt ms t)
    (second : s.Canonical isInt ns u) (same : s.polynomial t = s.polynomial u) : t = u := by
  obtain rfl := first.monomials_eq second same
  exact first.unique second

end Uniqueness

end Store

end Stratagem
