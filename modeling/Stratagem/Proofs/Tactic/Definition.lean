import Stratagem.Proofs.Rewriting.Monomial
import Stratagem.Proofs.Term.Occurrence
import Stratagem.Tactic.EquationSolver

/-!
# Definitions read off formulas

A definition that is read off a formula says the same as the formula: under every assignment the
formula is true if and only if the constant has the value of its definition. The constant does not
occur in the definition, so there is such an assignment.
-/
namespace Stratagem

open Store (Extends)

namespace Monomials

variable {m : Monomials} {v : TermId → ℝ} {Γ : Signature} {s : Store} {isInt : Bool}

/-- Subtracting the monomials of a list keeps power products apart. -/
theorem Apart.subtractAll (monomials : List Monomial) (apart : m.Apart) :
    (monomials.foldl (fun m e => m.add (-e.coeff) e.product) m).Apart := by
  induction monomials generalizing m with
  | nil => exact apart
  | cons e rest later => exact later (apart.add _ _)

/-- Subtracting the monomials of a list one after the other. -/
theorem eval_subtractAll (monomials : List Monomial) :
    eval v (monomials.foldl (fun m e => m.add (-e.coeff) e.product) m) =
      eval v m - sumOf v monomials := by
  induction monomials generalizing m with
  | nil => simp
  | cons e rest later =>
    rw [List.foldl_cons, later, eval_add, sumOf_cons, Monomial.eval, Monomial.eval]
    push_cast
    ring

/-- Subtracting monomials that fit keeps the fit. -/
theorem Fits.subtractAll {monomials : List Monomial} (known : m.Fits s Γ isInt)
    (each : ∀ e ∈ monomials, e.Fits s Γ isInt) :
    (monomials.foldl (fun m e => m.add (-e.coeff) e.product) m).Fits s Γ isInt := by
  induction monomials generalizing m with
  | nil => exact known
  | cons e rest later =>
    obtain ⟨here, others⟩ := List.forall_mem_cons.mp each
    refine later (known.add ⟨fun int => ?_, here.some, here.factors⟩) others
    exact Rational.isIntegral_neg (here.integral int)

end Monomials

/-- The power products of the linear form of a term differ. -/
theorem Store.apart_linearForm (s : Store) (t : TermId) : (s.linearForm t).monomials.Apart := by
  have all := List.foldlRecOn (motive := fun form : LinearForm => form.monomials.Apart)
    (s.summands t) (LinearForm.addTerm s) (b := ⟨0, {}⟩) Monomials.apart_empty (by
      intro form known a _
      unfold LinearForm.addTerm
      split
      · exact known
      · exact known.add _ _)
  exact all.retainNonzero

/-- The assignment of defaults: all constants are false or zero. -/
noncomputable instance : Inhabited Assignment := ⟨⟨fun _ => False, fun _ => 0, fun _ => 0⟩⟩

/-- A constant is defined by a term in which it does not occur, and a formula says that it has the
value of the term. -/
structure Store.Defines (s : Store) (Γ : Signature) (f x body : TermId) (name : String)
    (sort : TermSort) : Prop where
  /-- The constant. -/
  node : s.node x = ⟨.var name, [], sort⟩
  /-- The constant is well-sorted. -/
  constant : s.WellSorted Γ x
  /-- The definition is a term over the other constants. -/
  sorted : s.WellSorted (Γ.without name sort) body
  /-- The definition has the sort of the constant. -/
  sort_eq : s.sortOf body = sort
  /-- The formula says that the constant has the value of its definition. -/
  holds : ∀ I, s.holds I f ↔ s.value I x = s.value I body

namespace EquationSolver

open Monomials

variable {s : Store} {Γ Δ : Signature} {I : Assignment} {a b x : TermId} {isInt : Bool}
  {constant leading coeff : ℚ} {others : List Monomial}

/-- The difference of two numbers fits their sort. -/
theorem difference_fits (left : s.WellSorted Γ a) (right : s.WellSorted Γ b)
    (sortLeft : s.sortOf a = .number isInt) (sortRight : s.sortOf b = .number isInt) :
    (difference s a b).Fits s Γ isInt := by
  obtain ⟨wholeLeft, fitsLeft⟩ := left.fits_linearForm sortLeft
  obtain ⟨wholeRight, fitsRight⟩ := right.fits_linearForm sortRight
  exact ⟨fun int => Rational.isIntegral_sub (wholeLeft int) (wholeRight int),
    (fitsLeft.subtractAll fitsRight).retainNonzero⟩

/-- The value of the difference of two terms. -/
theorem eval_difference (a b : TermId) :
    (difference s a b).eval (s.num I) = s.num I a - s.num I b := by
  rw [← Store.eval_linearForm a, ← Store.eval_linearForm b]
  unfold difference LinearForm.eval
  dsimp only
  rw [eval_retainNonzero, eval_subtractAll, Monomials.eval, Monomials.eval]
  push_cast
  ring

/-- The power products of a difference differ. -/
theorem difference_apart (a b : TermId) : (difference s a b).monomials.Apart :=
  ((s.apart_linearForm a).subtractAll _).retainNonzero

/-- What is known of terms and the numbers they stand for, and stays known while the store grows
and when literals, sums and products are built. -/
structure Judges (s : Store) (isInt : Bool) (J : Store → TermId → ℝ → Prop) : Prop where
  /-- It stays known while the store grows. -/
  mono : ∀ {now after : Store} {t : TermId} {y : ℝ}, now.Extends after → J now t y → J after t y
  /-- It is known of a literal. -/
  numeral : ∀ {now : Store} {r : ℚ}, s.Extends now → (isInt → Rational.isIntegral r) →
    (Terms.mkNumeral r isInt).Ensures now fun t after => J after t r
  /-- It is known of a sum. -/
  add : ∀ {now : Store} {args : List TermId} {xs : List ℝ}, s.Extends now → args ≠ [] →
    List.Forall₂ (J now) args xs → (Terms.mkAdd args).Ensures now fun t after => J after t xs.sum
  /-- It is known of a product. -/
  mul : ∀ {now : Store} {args : List TermId} {xs : List ℝ}, s.Extends now → args ≠ [] →
    List.Forall₂ (J now) args xs → (Terms.mkMul args).Ensures now fun t after => J after t xs.prod

/-- Numbers of one sort are such terms. -/
theorem judges_number (s : Store) (Γ : Signature) (I : Assignment) (isInt : Bool) :
    Judges s isInt fun now t y => now.Number Γ I isInt t y where
  mono grown known := known.mono grown
  numeral _ whole := Terms.mkNumeral_number whole
  add _ some known := Terms.mkAdd_number some known
  mul _ some known := Terms.mkMul_number some known

section Judged

variable {J : Store → TermId → ℝ → Prop} {v : TermId → ℝ} {now : Store}

/-- A monomial is judged: it has factors, which are judged to have their values, and over the
integers an integer coefficient. -/
structure Judged (J : Store → TermId → ℝ → Prop) (v : TermId → ℝ) (isInt : Bool) (s : Store)
    (m : Monomial) : Prop where
  /-- The coefficient is an integer if the sort is that of integers. -/
  integral : isInt → Rational.isIntegral m.coeff
  /-- There is a factor. -/
  some : m.product ≠ []
  /-- The factors have their values. -/
  factors : ∀ a ∈ m.product, J s a (v a)

/-- Monomials of numbers of one sort are judged. -/
theorem judged_number {m : Monomial} (fits : m.Fits s Γ isInt) :
    Judged (fun now t y => now.Number Γ I isInt t y) (s.num I) isInt s m :=
  ⟨fits.integral, fits.some, fun a member => .self (fits.factors a member).1
    (fits.factors a member).2 I⟩

/-- A summand of a definition has the value of its monomial. -/
theorem summand_ensures (judges : Judges s isInt J) (more : s.Extends now) {m : Monomial}
    (judged : Judged J v isInt now m) (whole : isInt → Rational.isIntegral coeff) :
    (summand isInt coeff m.product).Ensures now fun t after =>
      J after t (coeff * (m.product.map v).prod) := by
  have numbers : List.Forall₂ (J now) m.product (m.product.map v) :=
    List.forall₂_map_right_iff.mpr (List.forall₂_same.mpr judged.factors)
  have scaled : ∀ t later, now.Extends later → J later t (m.product.map v).prod →
      (if coeff = 1 then pure t
        else do Terms.mkMul [← Terms.mkNumeral coeff isInt, t] : Terms TermId).Ensures later
        fun t after => J after t (coeff * (m.product.map v).prod) := by
    intro t later further known
    split
    · next one =>
      rw [one, Rat.cast_one, one_mul]
      exact Terms.ensures_pure known
    · apply Terms.ensures_bind (judges.numeral (more.trans further) whole)
      intro c after grown number
      have both := List.Forall₂.cons number (.cons (judges.mono grown known) .nil)
      refine (judges.mul ((more.trans further).trans grown) (List.cons_ne_nil c _) both).imp
        fun t _ _ built => ?_
      rwa [List.prod_cons, List.prod_singleton] at built
  rcases shape : m.product with _ | ⟨factor, _ | ⟨second, rest⟩⟩
  · exact absurd shape judged.some
  · rw [shape] at numbers scaled
    rcases numbers with _ | ⟨here, _⟩
    rw [List.map_singleton, List.prod_singleton] at scaled ⊢
    exact scaled factor now (.refl now) here
  · rw [shape] at numbers scaled
    exact Terms.ensures_bind (judges.mul more (List.cons_ne_nil factor _) numbers) scaled

/-- The rest of a sum over the leading coefficient, added to the summands it starts with. -/
theorem sumRest_ensures (judges : Judges s isInt J) {first : List TermId} {xs : List ℝ}
    (judged : ∀ m ∈ others, Judged J v isInt s m)
    (divided : ∀ q : ℚ, (isInt → Rational.isIntegral q) →
      isInt → Rational.isIntegral (-q / leading))
    (grown : s.Extends now) (starts : List.Forall₂ (J now) first xs)
    (sum : xs.sum = (-constant / leading : ℚ)) :
    (do
      let rest ← others.mapM fun m => summand isInt (-m.coeff / leading) m.product
      match first ++ rest with
      | [] => Terms.mkNumeral 0 isInt
      | parts => Terms.mkAdd parts : Terms TermId).Ensures now fun t after =>
        J after t ((-constant - sumOf v others) / leading) := by
  have each : ∀ m ∈ others, ∀ later, now.Extends later →
      (summand isInt (-m.coeff / leading) m.product).Ensures later fun t after =>
        J after t (-m.eval v / leading) := by
    intro m member later more
    have known := judged m member
    have here : Judged J v isInt later m :=
      { known with factors := fun a inside =>
          judges.mono (grown.trans more) (known.factors a inside) }
    refine (summand_ensures judges (grown.trans more) here
      (divided m.coeff known.integral)).imp fun t after _ built => ?_
    have value : ((-m.coeff / leading : ℚ) : ℝ) * (m.product.map v).prod =
        -m.eval v / leading := by
      rw [Monomial.eval]
      push_cast
      ring
    exact value ▸ built
  have all : (others.mapM fun m => summand isInt (-m.coeff / leading) m.product).Ensures now
      fun rest after => List.Forall₂
        (fun m t => J after t (-m.eval v / leading)) others rest := by
    refine Terms.ensures_mapM ?_ others each
    exact fun m t before after more known => judges.mono more known
  apply Terms.ensures_bind all
  intro rest after more summands
  let shares := others.map fun m : Monomial => -m.eval v / (leading : ℝ)
  have parts : List.Forall₂ (J after) (first ++ rest) (xs ++ shares) :=
    List.rel_append (starts.imp fun _ _ known => judges.mono more known)
      (List.forall₂_map_right_iff.mpr summands.flip)
  have total : (xs ++ shares).sum = (-constant - sumOf v others) / leading := by
    have scaled : shares = others.map fun m => m.eval v * -(leading : ℝ)⁻¹ :=
      List.map_congr_left fun m _ => by ring
    rw [List.sum_append, sum, scaled, List.sum_map_mul_right, sumOf]
    push_cast
    ring
  split
  · next empty =>
    obtain ⟨rfl, rfl⟩ := List.append_eq_nil_iff.mp empty
    have none := List.forall₂_nil_left_iff.mp parts
    rw [none, List.sum_nil] at total
    refine (judges.numeral (grown.trans more) fun _ => Rational.isIntegral_zero).imp
      fun t _ _ built => ?_
    rwa [Rat.cast_zero, total] at built
  · next some =>
    exact (judges.add (grown.trans more) some parts).imp fun t _ _ built => total ▸ built

/-- The value of a solved equation. -/
theorem solution_ensures (judges : Judges s isInt J) (judged : ∀ m ∈ others, Judged J v isInt s m)
    (whole : isInt → Rational.isIntegral constant) (unit : isInt → leading = 1 ∨ leading = -1) :
    (solution isInt constant leading others).Ensures s fun t after =>
      J after t ((-constant - sumOf v others) / leading) := by
  -- Dividing by a unit keeps integers.
  have divided : ∀ q : ℚ, (isInt → Rational.isIntegral q) →
      isInt → Rational.isIntegral (-q / leading) := by
    intro q integral int
    rcases unit int with rfl | rfl
    · simpa using Rational.isIntegral_neg (integral int)
    · simpa using integral int
  unfold solution
  dsimp only
  split
  · next free => exact sumRest_ensures judges judged divided (.refl s) .nil (by simp [free])
  · rw [map_eq_pure_bind, bind_assoc]
    apply Terms.ensures_bind (judges.numeral (.refl s) (divided constant whole))
    intro c now grown number
    exact sumRest_ensures judges judged divided grown (.cons number .nil) List.sum_singleton

end Judged

section Reading

variable {config : EquationConfig} {g : Goal} {f t y : TermId} {after : Store} {d : Definition}
  {name : String} {sort : TermSort}

/-- A constant by its name and sort. -/
theorem node_of_isVar (sorted : s.WellSorted Γ x) (var : s.isVar x = true) :
    ∃ name, s.node x = ⟨.var name, [], s.sortOf x⟩ := by
  unfold Store.isVar Store.varName? at var
  split at var
  · next name head =>
    refine ⟨name, ?_⟩
    rw [← head, ← sorted.args_of_var head]
    rfl
  · cases var

/-- An equation of a constant and a term in which it does not occur defines the constant. -/
theorem direct?_defines (found : direct? s y t = some d) (left : s.WellSorted Γ y)
    (right : s.WellSorted Γ t) (agree : ∀ I, s.holds I f ↔ s.value I y = s.value I t) :
    ∃ name sort, s.Defines Γ f d.1 d.2 name sort := by
  unfold direct? at found
  split at found
  · next fits =>
    obtain rfl := Option.some.inj found
    simp only [Bool.and_eq_true, beq_iff_eq, Bool.not_eq_true'] at fits
    obtain ⟨⟨var, sorts⟩, absent⟩ := fits
    obtain ⟨name, node⟩ := node_of_isVar left var
    exact ⟨name, s.sortOf y, node, left, right.without node absent, sorts.symm, agree⟩
  · cases found

/-- A literal defines the constant of a formula. -/
theorem literal_defines (known : s.WellSorted Γ x) (node : s.node x = ⟨.var name, [], .bool⟩)
    {b : Bool} (agree : ∀ I, s.holds I f ↔ (s.holds I x ↔ b = true)) :
    s.Defines Γ f x (Terms.ofBool b) name .bool where
  node := node
  constant := known
  sorted := (Terms.formula_ofBool (I := default) s b).sorted
  sort_eq := (Terms.formula_ofBool (Γ := Γ) (I := default) s b).sort_eq
  holds I := by
    have truth := known.hasSort (I := I)
    rw [Store.sortOf, node] at truth
    rw [agree I, (Terms.formula_ofBool (Γ := Γ) (I := I) s b).value_eq, Value.eq_truth truth,
      Value.truth.injEq, eq_iff_iff]
    rfl

/-- The monomial that is solved and the others: the constant occurs in no other monomial, and over
the integers the coefficient is a unit and the other coefficients are integers. -/
theorem solvable_spec {form : LinearForm} {allowed : TermId → Bool} {position : ℕ}
    (apart : form.monomials.Apart)
    (there : form.monomials.toList[position]? = some ⟨leading, [x]⟩)
    (solvable : solvable s allowed form ⟨leading, [x]⟩ = true) :
    s.isVar x = true ∧ allowed x = true ∧
      (s.isInt x → (leading = 1 ∨ leading = -1) ∧ Rational.isIntegral form.constant) ∧
      ∀ m ∈ form.monomials.toList.eraseIdx position, m.product ≠ [x] ∧
        (s.isInt x → Rational.isIntegral m.coeff) ∧ ∀ a ∈ m.product, s.occurs x a = false := by
  simp only [EquationSolver.solvable, Bool.and_eq_true] at solvable
  obtain ⟨⟨⟨coefficient, var⟩, accepted⟩, others⟩ := solvable
  refine ⟨var, accepted, fun whole => ?_, fun m member => ?_⟩
  · rw [if_pos whole] at coefficient
    simpa using coefficient
  · obtain ⟨i, other, found⟩ := List.mem_eraseIdx_iff_getElem?.mp member
    have differ : m.product ≠ [x] := by
      intro same
      have first : (form.monomials.toList.map (·.product))[i]? = some [x] := by
        rw [List.getElem?_map, found, Option.map_some, same]
      have second : (form.monomials.toList.map (·.product))[position]? = some [x] := by
        rw [List.getElem?_map, there]
        rfl
      have short := (List.getElem?_eq_some_iff.mp first).1
      exact other ((apart.nodup.getElem_inj_iff).mp (by
        rw [(List.getElem?_eq_some_iff.mp first).2, (List.getElem?_eq_some_iff.mp second).2]))
    have among : m ∈ form.monomials.toList.filter (·.product != [x]) :=
      List.mem_filter.mpr ⟨List.mem_of_getElem? found, by simpa using differ⟩
    have here := List.all_eq_true.mp others m among
    rw [Bool.and_eq_true] at here
    refine ⟨differ, fun whole => ?_, fun a inside => ?_⟩
    · simpa [whole] using here.1
    · simpa using List.all_eq_true.mp here.2 a inside

/-- One monomial and the others. -/
theorem eval_split {v : TermId → ℝ} {monomials : Monomials} {m : Monomial} {position : ℕ}
    (there : monomials.toList[position]? = some m) :
    monomials.eval v = m.eval v + sumOf v (monomials.toList.eraseIdx position) := by
  obtain ⟨short, rfl⟩ := List.getElem?_eq_some_iff.mp there
  have same := (List.getElem_cons_eraseIdx_perm short).map (Monomial.eval v)
  rw [← sumOf_cons, sumOf, same.sum_eq]
  rfl

/-- A linear equation that is solved defines the constant that it is solved for. -/
theorem linear?_ensures {allowed : Store → TermId → Bool} (left : s.WellSorted Γ a)
    (right : s.WellSorted Γ b) (sortLeft : s.sortOf a = .number isInt)
    (sortRight : s.sortOf b = .number isInt) (inside : f < s.size)
    (agree : ∀ I, s.holds I f ↔ s.value I a = s.value I b) :
    (linear? allowed a b).Ensures s fun found after => ∀ d, found = some d →
      ∃ name sort, after.Defines Γ f d.1 d.2 name sort := by
  unfold linear?
  apply Terms.ensures_read_bind
  have fits := difference_fits left right sortLeft sortRight
  have apart := difference_apart (s := s) a b
  dsimp only
  split
  · exact Terms.ensures_pure (by simp)
  · next position chosen =>
    split
    · next leading y there =>
      obtain ⟨short, holds, _⟩ := List.findIdx?_eq_some_iff_getElem.mp chosen
      rw [(List.getElem?_eq_some_iff.mp there).2] at holds
      obtain ⟨var, -, unit, others⟩ := solvable_spec apart there holds
      have member := List.mem_of_getElem? there
      obtain ⟨sorted, number⟩ := (fits.2 _ member).factors y (List.mem_singleton_self y)
      obtain ⟨name, node⟩ := node_of_isVar sorted var
      have int : s.isInt y = isInt := Store.Numbers.isInt_eq number
      have nonzero : leading ≠ 0 := (Monomials.mem_retainNonzero member).2
      have without : ∀ m ∈ (difference s a b).monomials.toList.eraseIdx position,
          m.Fits s (Γ.without name (s.sortOf y)) isInt := by
        intro m among
        have known := fits.2 m (List.mem_of_mem_eraseIdx among)
        refine ⟨known.integral, known.some, fun c factor => ?_⟩
        obtain ⟨sorted, number⟩ := known.factors c factor
        exact ⟨sorted.without node ((others m among).2.2 c factor), number⟩
      rw [int] at unit ⊢
      have solved (I : Assignment) := solution_ensures (judges_number s _ I isInt)
        (fun m among => judged_number (without m among)) fits.1 fun whole => (unit whole).1
      apply Terms.ensures_bind (Terms.ensures_forall solved)
      intro body after grown built
      apply Terms.ensures_pure
      rintro d ⟨⟩
      have body_sort : after.sortOf body = s.sortOf y := (built default).sort_eq.trans number.symm
      have here := grown.lt_size inside
      refine ⟨name, s.sortOf y, (grown.node_eq sorted.inside).trans node, sorted.mono grown,
        (built default).sorted, body_sort, fun J => ?_⟩
      rw [Store.holds, grown.value_eq J inside, grown.value_eq J sorted.inside,
        (Store.Number.self sorted number J).value_eq, (built J).value_eq, Value.number.injEq]
      refine (agree J).trans ?_
      rw [(Store.Number.self left sortLeft J).value_eq, (Store.Number.self right sortRight J).value_eq,
        Value.number.injEq, ← sub_eq_zero, ← eval_difference, LinearForm.eval, eval_split there,
        Monomial.eval, eq_div_iff (by exact_mod_cast nonzero)]
      simp only [List.map_singleton, List.prod_singleton]
      constructor <;> intro equation <;> linarith
    · exact Terms.ensures_pure (by simp)

/-- A definition that a formula gives says what the formula does. -/
theorem definition?_ensures (sorted : s.WellSorted Γ f) (bool : s.sortOf f = .bool) :
    (definition? config g f).Ensures s fun found after => ∀ d, found = some d →
      ∃ name sort, after.Defines Γ f d.1 d.2 name sort := by
  have fits := sorted.fits
  unfold definition?
  apply Terms.ensures_read_bind
  dsimp only
  split
  · next name args view =>
    obtain ⟨head, -⟩ := Store.view_eq_iff.mp view
    apply Terms.ensures_pure
    intro d found
    split at found
    · obtain rfl := Option.some.inj found
      have node : s.node f = ⟨.var name, [], .bool⟩ := by
        rw [← head, ← sorted.args_of_var head, ← bool]
        rfl
      exact ⟨name, .bool, literal_defines (b := true) sorted node fun I => by simp⟩
    · cases found
  · next a view =>
    obtain ⟨head, arguments⟩ := Store.view_eq_iff.mp view
    rw [head, arguments] at fits
    have inner : s.WellSorted Γ a := sorted.of_mem_args (by rw [arguments]; exact List.mem_cons_self ..)
    apply Terms.ensures_pure
    intro d found
    split at found
    · next chosen =>
      obtain rfl := Option.some.inj found
      obtain ⟨name, node⟩ := node_of_isVar inner (Bool.and_eq_true_iff.mp chosen).1
      rw [fits.2] at node
      refine ⟨name, .bool, literal_defines (b := false) inner node fun I => ?_⟩
      rw [Store.holds, Store.value_eq, head, arguments]
      simp [Op.denote, Op.interpret, Store.holds]
    · cases found
  · next a b view =>
    obtain ⟨head, arguments⟩ := Store.view_eq_iff.mp view
    rw [head, arguments] at fits
    have left : s.WellSorted Γ a := sorted.of_mem_args (by simp [arguments])
    have right : s.WellSorted Γ b := sorted.of_mem_args (by simp [arguments])
    have agree : ∀ I, s.holds I f ↔ s.value I a = s.value I b := by
      intro I
      rw [Store.holds, Store.value_eq, head, arguments]
      simp [Op.denote, Op.interpret]
    split
    · next d chosen =>
      apply Terms.ensures_pure
      rintro _ ⟨⟩
      rcases Option.or_eq_some_iff.mp chosen with first | ⟨_, second⟩
      · exact direct?_defines (Option.filter_eq_some_iff.mp first).1 left right agree
      · exact direct?_defines (Option.filter_eq_some_iff.mp second).1 right left fun I =>
          (agree I).trans eq_comm
    · split
      · next theory =>
        obtain ⟨isInt, sort⟩ := TermSort.exists_eq_number (Bool.and_eq_true_iff.mp theory).2
        exact linear?_ensures left right sort (fits.2.trans sort) sorted.inside agree
      · exact Terms.ensures_pure (by simp)
  · exact Terms.ensures_pure (by simp)

/-- The first definition that formulas give is that of one of them. -/
theorem candidate?_ensures {formulas : List TermId} {slot : ℕ}
    (sorted : ∀ f ∈ formulas, s.WellSorted Γ f ∧ s.sortOf f = .bool) :
    (candidate? config g slot formulas).Ensures s fun found after => ∀ place d,
      found = some (place, d) → ∃ k f, place = slot + k ∧ formulas[k]? = some f ∧
        ∃ name sort, after.Defines Γ f d.1 d.2 name sort := by
  induction formulas generalizing s slot with
  | nil => exact Terms.ensures_pure (by simp)
  | cons f rest tail =>
    obtain ⟨⟨here, bool⟩, others⟩ := List.forall_mem_cons.mp sorted
    unfold candidate?
    apply Terms.ensures_bind (definition?_ensures here bool)
    intro found middle grown known
    cases found with
    | some d =>
      apply Terms.ensures_pure
      rintro _ _ ⟨⟩
      exact ⟨0, f, rfl, rfl, known d rfl⟩
    | none =>
      have others : ∀ f ∈ rest, middle.WellSorted Γ f ∧ middle.sortOf f = .bool := fun f member =>
        have known := others f member
        ⟨known.1.mono grown, (grown.sortOf_eq known.1.inside).trans known.2⟩
      apply (tail others).imp
      intro found after _ known place d chosen
      obtain ⟨k, f', rfl, there, defined⟩ := known place d chosen
      exact ⟨k + 1, f', by omega, there, defined⟩

end Reading

end EquationSolver

namespace Store.Defines

variable {s after : Store} {Γ : Signature} {f x body : TermId} {name : String} {sort : TermSort}

/-- Definitions stay when the store grows. -/
theorem mono (known : s.Defines Γ f x body name sort) (inside : f < s.size)
    (grown : s.Extends after) : after.Defines Γ f x body name sort where
  node := (grown.node_eq known.constant.inside).trans known.node
  constant := known.constant.mono grown
  sorted := known.sorted.mono grown
  sort_eq := (grown.sortOf_eq known.sorted.inside).trans known.sort_eq
  holds I := by
    rw [Store.holds, grown.value_eq I inside, grown.value_eq I known.constant.inside,
      grown.value_eq I known.sorted.inside]
    exact known.holds I

/-- A term that replaces a definition is a definition. -/
theorem replace {u : TermId} (known : s.Defines Γ f x body name sort)
    (replaces : s.Replaces (Γ.without name sort).strict u body) :
    s.Defines Γ f x u name sort where
  node := known.node
  constant := known.constant
  sorted := replaces.sorted.mono_within (.refl s) (Signature.strict_within _)
  sort_eq := replaces.sort_eq.trans known.sort_eq
  holds I := by
    rw [replaces.value_eq I]
    exact known.holds I

end Store.Defines

end Stratagem
