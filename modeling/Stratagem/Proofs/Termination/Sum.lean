import Stratagem.Proofs.Steady.Sum
import Stratagem.Proofs.Termination.Measure

/-!
# Rules for sums and products make numbers no heavier

Monomials that are merged weigh no more than they did apart, and a product that is multiplied out,
alone or by a literal, weighs more than the sum of products it becomes. Sums and products without
anything to multiply out have their result at once.
-/
namespace Stratagem

open Store (Extends)

variable {s after : Store} {config : SimplifierConfig} {Γ : Signature} {t a b : TermId}
  {args : List TermId} {isInt : Bool} {δ n k : ℕ} {I : Assignment} {x : ℝ}

namespace Store

/-- The summands of a term weigh no more than the term, with a surcharge for each. -/
theorem sum_weight_flattenTo (config : SimplifierConfig) (s : Store) (depth : ℕ) (t : TermId) :
    ((s.flattenTo .add depth t).map fun a => s.weight config a + 1).sum ≤ s.weight config t + 1 := by
  induction depth generalizing t with
  | zero => simp [flattenTo]
  | succ depth deeper =>
    unfold flattenTo
    split
    · next head =>
      rw [weight_eq, head, List.flatMap_def, List.map_flatten, List.sum_flatten, List.map_map,
        List.map_map]
      have each := List.sum_le_sum (l := s.args t) fun a _ => deeper a
      simp only [Op.weigh, List.map_map, Function.comp_def] at each ⊢
      omega
    · simp

/-- The factors of a term weigh no more than the term, multiplied. -/
theorem prod_weight_flattenTo (config : SimplifierConfig) (s : Store) (depth : ℕ) (t : TermId) :
    ((s.flattenTo .mul depth t).map (s.weight config)).prod ≤ s.weight config t := by
  induction depth generalizing t with
  | zero => simp [flattenTo]
  | succ depth deeper =>
    unfold flattenTo
    split
    · next head =>
      rw [weight_eq config s t, head, List.flatMap_def, List.map_flatten, List.prod_flatten,
        List.map_map, List.map_map]
      have each := List.prod_le_prod' (l := s.args t) fun a _ => deeper a
      exact each.trans (Nat.le_mul_of_pos_left _ Nat.two_pos)
    · simp

end Store

/-- The product of the weights of factors. -/
def Store.heft (config : SimplifierConfig) (s : Store) (factors : List TermId) : ℕ :=
  (factors.map (s.weight config)).prod

/-- Factors weigh something. -/
theorem Store.one_le_heft (config : SimplifierConfig) (s : Store) (factors : List TermId) :
    1 ≤ s.heft config factors :=
  one_le_prod (List.forall_mem_map.mpr fun f _ => s.one_le_weight config f)

/-- The weight of a multiple of a power product. -/
def Monomial.load (config : SimplifierConfig) (s : Store) (m : Monomial) : ℕ :=
  if m.product = [] ∨ m.coeff = 1 ∧ m.product.length = 1 then s.heft config m.product
  else 2 * s.heft config m.product

namespace Monomial

/-- A multiple weighs no less than the power product. -/
theorem heft_le_load (config : SimplifierConfig) (s : Store) (m : Monomial) : s.heft config m.product ≤ m.load config s := by
  unfold load
  split <;> omega

/-- A multiple weighs at most twice the product of the factors. -/
theorem load_le_heft (config : SimplifierConfig) (s : Store) (m : Monomial) : m.load config s ≤ 2 * s.heft config m.product := by
  unfold load
  split <;> omega

end Monomial

/-- A monomial keeps its weight when the store grows. -/
theorem Monomial.load_eq {m : Monomial} (grown : s.Extends after)
    (inside : ∀ f ∈ m.product, f < s.size) : m.load config after = m.load config s := by
  unfold load Store.heft
  rw [List.map_congr_left fun f factor => grown.weight_eq config (inside f factor)]

/-- A term weighs no less than its monomial. -/
theorem Store.load_monomial (t : TermId) : (s.monomial t).load config s ≤ s.weight config t := by
  have product {args : List TermId} (view : s.view t = (.mul, args)) :
      s.weight config t = 2 * s.heft config args := weight_of_view config view
  unfold monomial
  split
  · next view => simpa [product view] using (Monomial.load_le_heft config s ⟨1, []⟩)
  · next first rest view =>
    rw [product view]
    split
    · next c literal =>
      refine (Monomial.load_le_heft config s _).trans (Nat.mul_le_mul_left 2 ?_)
      simpa [heft] using Nat.le_mul_of_pos_left _ (s.one_le_weight config first)
    · exact Monomial.load_le_heft config s _
  · simp [Monomial.load, heft]

namespace Monomials

/-- The weight of monomials, with a surcharge for each. -/
def load (config : SimplifierConfig) (s : Store) (monomials : List Monomial) : ℕ :=
  (monomials.map fun m => m.load config s + 1).sum

/-- Merging monomials makes them no heavier. -/
theorem load_add (m : Monomials) (c : ℚ) (product : PowerProduct) :
    load config s (m.add c product).toList ≤
      load config s m.toList + (Monomial.load config s ⟨c, product⟩ + 1) := by
  obtain ⟨before, d, after, whole, _, added⟩ | ⟨_, added⟩ := m.add_cases c product
  · have merged := Monomial.load_le_heft config s ⟨d + c, product⟩
    have first := Monomial.heft_le_load config s ⟨d, product⟩
    have second := Monomial.heft_le_load config s ⟨c, product⟩
    rw [whole, added]
    simp only [load, List.map_append, List.map_cons, List.sum_append, List.sum_cons]
      at merged first second ⊢
    omega
  · rw [added]
    simp [load]

/-- Dropping zeros makes monomials no heavier. -/
theorem load_retainNonzero (m : Monomials) :
    load config s m.retainNonzero.toList ≤ load config s m.toList :=
  (List.filter_sublist.map _).sum_le_sum fun _ _ => Nat.zero_le _

/-- Ordering makes monomials no heavier. -/
theorem load_sort (m : Monomials) : load config s m.sort.toList ≤ load config s m.toList :=
  (m.sort_perm.map _).sum_eq.trans_le (load_retainNonzero m)

end Monomials

namespace Arithmetic

open Terms Rule

/-- A rational literal of a rule. -/
theorem mkNumber_bounded (δ : ℕ) (r : ℚ) (isInt : Bool) :
    (mkNumber (.rational r) isInt).Ensures config s fun t after => after.Bounded config δ t 1 :=
  ensures_lift (mkNumeral_bounded config δ r isInt)

/-- A multiple of a power product of numbers. -/
theorem mkMonomial_bounded {m : Monomial} (numbers : s.Numbers Γ isInt m.product)
    (ranked : ∀ f ∈ m.product, s.Ranked δ f) :
    (mkMonomial m.coeff m.product isInt).Ensures config s fun t after =>
      after.Bounded config δ t (m.load config s) := by
  obtain ⟨c, product⟩ := m
  unfold mkMonomial
  dsimp only at numbers ranked ⊢
  split
  · exact ensures_lift (mkNumeral_bounded config δ c isInt)
  · next first rest =>
    have each := Store.Bounded.self_all config ranked
    split
    · next one =>
      refine ensures_lift ?_
      match rest with
      | [] =>
        obtain ⟨inside, rank⟩ := ranked first (by simp)
        refine Terms.ensures_pure ⟨inside, rank, ?_⟩
        simp [Monomial.load, Store.heft, one]
      | second :: others =>
        refine (mkMul_bounded each).imp fun t _ _ built => built.le ?_
        simp [Monomial.load, Store.heft]
    · next other =>
      refine ensures_peek_bind (ensures_read_bind ?_)
      rw [(List.forall_mem_cons.mp numbers).1.1.algebraic?_eq]
      split
      · next found => cases found
      · refine ensures_bind (ensures_lift (mkNumeral_bounded config δ c isInt))
          fun lead after grown literal => ?_
        refine ensures_lift ((mkMul_bounded (.cons literal
          (Store.Bounded.mono_all each grown))).imp fun t _ _ built => built.le ?_)
        simp [Monomial.load, Store.heft, other]

/-- The terms of several monomials of numbers. -/
theorem mkMonomials_bounded {monomials : List Monomial}
    (known : ∀ m ∈ monomials, s.Numbers Γ isInt m.product ∧ ∀ f ∈ m.product, s.Ranked δ f) :
    (mkMonomials monomials isInt).Ensures config s fun terms after =>
      List.Forall₂ (after.Bounded config δ) terms (monomials.map (·.load config s)) := by
  refine ensures_mapM_bounded fun m member now grown => ?_
  obtain ⟨numbers, ranked⟩ := known m member
  exact Monomial.load_eq grown (fun f factor => (ranked f factor).1) ▸
    mkMonomial_bounded (numbers.mono grown) fun f factor => (ranked f factor).mono grown

/-- The weight of an optional literal among summands. -/
def constantLoad {α : Type} : Option α → ℕ
  | none => 0
  | some _ => 2

/-- Gathered summands weigh no more than they did apart, and their factors are of no greater
rank. -/
theorem gatherSum_load : ∀ (terms : List TermId) (constant : Option ℚ) (monomials : Monomials),
    (∀ a ∈ terms, s.WellSorted Γ a ∧ s.Ranked δ a) → monomials.All (s.Ranked δ) →
    (gatherSum terms (constant.map .rational) monomials).Ensures config s fun found _ =>
      ∀ total gathered, found = some (total, gathered) → gathered.All (s.Ranked δ) ∧
        constantLoad total + Monomials.load config s gathered.toList ≤
          constantLoad constant + Monomials.load config s monomials.toList +
            (terms.map fun a => s.weight config a + 1).sum
  | [], constant, monomials, _, ranked => ensures_pure fun total gathered same => by
    obtain ⟨rfl, rfl⟩ := Prod.mk.inj (Option.some.inj same)
    cases constant <;> simp [constantLoad, ranked]
  | t :: rest, constant, monomials, known, ranked => by
    obtain ⟨⟨sorted, rank⟩, later⟩ := List.forall_mem_cons.mp known
    unfold gatherSum
    refine ensures_numeralValue?_bind sorted ?_
    rw [List.map_cons, List.sum_cons]
    cases s.numeral? t with
    | none =>
      refine ensures_peek_bind ?_
      have factors := Store.monomial_all Store.Ranked.below rank
      refine (gatherSum_load rest constant _ later (ranked.add _ factors)).imp
        fun found _ _ known total gathered same => ?_
      obtain ⟨all, light⟩ := known total gathered same
      have merged : Monomials.load config s _ ≤ _ + ((s.monomial t).load config s + 1) :=
        monomials.load_add (s.monomial t).coeff (s.monomial t).product
      have monomial : (s.monomial t).load config s ≤ _ := Store.load_monomial t
      refine ⟨all, ?_⟩
      omega
    | some r =>
      have positive := s.one_le_weight config t
      cases constant with
      | none =>
        refine (gatherSum_load rest (some r) monomials later ranked).imp
          fun found _ _ known total gathered same => ?_
        obtain ⟨all, light⟩ := known total gathered same
        refine ⟨all, ?_⟩
        simp only [constantLoad] at light ⊢
        omega
      | some c =>
        refine ensures_evaluate?_bind ?_
        refine (gatherSum_load rest (some (c + r)) monomials later ranked).imp
          fun found _ _ known total gathered same => ?_
        obtain ⟨all, light⟩ := known total gathered same
        refine ⟨all, ?_⟩
        simp only [constantLoad] at light ⊢
        omega

/-- The summands that terms are taken apart to. -/
theorem ranked_flatMap (head : Op) (ranked : ∀ a ∈ args, s.Ranked δ a) :
    ∀ a ∈ args.flatMap fun t => s.flattenTo head (t + 1) t, s.Ranked δ a := by
  intro a member
  obtain ⟨b, argument, member⟩ := List.mem_flatMap.mp member
  exact Store.flattenTo_all Store.Ranked.below head (b + 1) (ranked b argument) a member

/-- A literal that is not zero, for an optional rational. -/
theorem constant_bounded (δ : ℕ) (total : Option ℚ) (isInt : Bool) :
    (((total.map Numeral.rational).filter fun c => !c.isZero).mapM (mkNumber · isInt)).Ensures
      config s fun literal after => ∃ ns, List.Forall₂ (after.Bounded config δ) literal.toList ns ∧
        (ns.map (· + 1)).sum ≤ constantLoad total := by
  cases total with
  | none => exact ensures_pure ⟨[], .nil, le_rfl⟩
  | some r =>
    cases kept : ((some r).map Numeral.rational).filter fun c => !c.isZero with
    | none => exact ensures_pure ⟨[], .nil, Nat.zero_le 2⟩
    | some c =>
      obtain ⟨same, _⟩ := Option.filter_eq_some_iff.mp kept
      obtain rfl := Option.some.inj same
      rw [Option.mapM_some, map_eq_pure_bind]
      refine ensures_bind (mkNumber_bounded δ r isInt) fun literal after _ built => ?_
      exact ensures_pure ⟨[1], .cons built .nil, le_rfl⟩

/-- Sum. -/
theorem reduceAdd_falls (known : s.Number Γ I isInt t x) (rank : s.rank t ≤ δ)
    (view : s.view t = (.add, args)) :
    (reduceAdd t args).Ensures config s fun o after => o.Falls after config δ (s.weight config t) := by
  have numbers := numbers_of_view known view (.inl rfl)
  have ranked : ∀ a ∈ args, s.Ranked δ a :=
    (Store.view_eq_iff.mp view).2 ▸ Store.Ranked.below t ⟨known.inside, rank⟩
  have members := numbers_flatMap numbers (.inl rfl)
  have ranks := ranked_flatMap .add ranked
  have parts : ((args.flatMap s.summands).map fun a => s.weight config a + 1).sum + 2 ≤
      s.weight config t := by
    rw [Store.weight_of_view config view, List.flatMap_def, List.map_flatten, List.sum_flatten,
      List.map_map, List.map_map]
    have each := List.sum_le_sum (l := args) fun a _ =>
      s.sum_weight_flattenTo config (a + 1) a
    simp only [Op.weigh, List.map_map, Function.comp_def]
    exact Nat.add_le_add_right each 2
  unfold reduceAdd
  refine ensures_peek_bind (ensures_peek_bind ?_)
  rw [known.isInt_eq]
  refine ensures_bind ((Semantics.gatherSum_means (M := I.semantics Γ) (args.flatMap s.summands)
    none {} 0 members ⟨by simp, fun _ => rfl⟩ .empty).and
    (gatherSum_load (args.flatMap s.summands) none {}
      (fun a member => ⟨(members a member).1, ranks a member⟩) Monomials.all_empty))
    fun found middle _ result => ?_
  split
  · exact ensures_pure trivial
  next total gathered =>
  obtain ⟨sum, load⟩ := result
  obtain ⟨rfl, y, constant, fits, _⟩ := sum total gathered rfl
  obtain ⟨all, light⟩ := load total gathered rfl
  obtain ⟨total, rfl⟩ : ∃ rational : Option ℚ, total = rational.map .rational := by
    cases total with
    | none => exact ⟨none, rfl⟩
    | some c =>
      obtain ⟨r, rfl⟩ := (constant.1 c rfl).exists_rational id
      exact ⟨some r, rfl⟩
  refine ensures_read_bind ?_
  -- Neither dropping zeros nor ordering matters.
  obtain ⟨monomials, same, fits, all, light⟩ : ∃ monomials : Monomials,
      (if config.sortSums then gathered.retainNonzero.sort else gathered.retainNonzero) =
        monomials ∧ (I.semantics Γ).AllFit middle isInt monomials ∧
      monomials.All (middle.Ranked δ) ∧
      constantLoad total + Monomials.load config middle monomials.toList + 2 ≤
        middle.weight config t := by
    have same : constantLoad (total.map Numeral.rational) = constantLoad total := by
      cases total <;> rfl
    have light : constantLoad total + Monomials.load config middle gathered.toList ≤
        ((args.flatMap middle.summands).map fun a => middle.weight config a + 1).sum := by
      rw [same] at light
      simpa [constantLoad, Monomials.load, Monomials.toList] using light
    have dropped : Monomials.load config middle _ ≤ _ := Monomials.load_retainNonzero gathered
    have sorted : Monomials.load config middle _ ≤ _ := Monomials.load_sort gathered.retainNonzero
    refine ⟨_, rfl, ?_, ?_, ?_⟩
    · split
      · exact fits.retainNonzero.sort
      · exact fits.retainNonzero
    · split
      · exact all.retainNonzero.sort
      · exact all.retainNonzero
    · split <;> omega
  simp only [same]
  refine ensures_bind (constant_bounded δ total isInt) fun literal after grown lead => ?_
  obtain ⟨ns, lead, constant⟩ := lead
  have later : ∀ m ∈ monomials.toList, after.Numbers Γ isInt m.product ∧
      ∀ f ∈ m.product, after.Ranked δ f := fun m member =>
    ⟨((fits m member).mono grown).factors, fun f factor => (all m member f factor).mono grown⟩
  refine ensures_bind (mkMonomials_bounded later) fun terms last more built => ?_
  have loads : monomials.toList.map (·.load config after) =
      monomials.toList.map (·.load config middle) :=
    List.map_congr_left fun m member => Monomial.load_eq grown fun f factor =>
      (all m member f factor).1
  rw [loads] at built
  have terms_bounded := List.rel_append (Store.Bounded.mono_all lead more) built
  split
  · exact ensures_pure trivial
  split
  · exact ensures_done ((mkNumeral_bounded config δ 0 isInt).imp fun _ _ _ built =>
      built.le (Store.one_le_weight config _ t))
  · refine ensures_done ((mkAdd_bounded terms_bounded).imp fun _ _ _ built => built.le ?_)
    simp only [List.map_append, List.sum_append, List.map_map] at light constant ⊢
    simp only [Monomials.load, Function.comp_def] at light ⊢
    omega

/-- What is not a literal weighs at least two. -/
theorem two_le_weight_of_numeral? (sorted : s.WellSorted Γ a) (arith : (s.sortOf a).isArith)
    (other : s.numeral? a = none) : 2 ≤ s.weight config a := by
  refine Store.two_le_weight ?_
  have fits := sorted.fits
  unfold Store.numeral? at other
  cases head : s.op a with
  | bool p =>
    rw [head] at fits
    cases arguments : s.args a with
    | nil =>
      rw [arguments] at fits
      rw [fits] at arith
      cases arith
    | cons =>
      rw [arguments] at fits
      exact fits.elim
  | int | real => simp [head] at other
  | _ => rfl

/-- Factors that are not literals, of some rank. -/
structure Factors (config : SimplifierConfig) (s : Store) (δ : ℕ) (factors : List TermId) :
    Prop where
  /-- The rank is bounded. -/
  ranked : ∀ f ∈ factors, s.Ranked δ f
  /-- No factor is a literal. -/
  heavy : ∀ f ∈ factors, 2 ≤ s.weight config f

/-- Gathered factors weigh no more than the terms they are gathered from. -/
theorem gatherProduct_heft : ∀ (terms : List TermId) (coeff : ℚ) (others : List TermId),
    s.Numbers Γ isInt terms → (∀ a ∈ terms, s.Ranked δ a) → Factors config s δ others →
    (gatherProduct isInt terms (.rational coeff) others).Ensures config s fun found after =>
      match found with
      | .ok (_, factors) => Factors config s δ factors ∧
          s.heft config factors ≤ s.heft config others * s.heft config terms
      | .error o => o.Falls after config δ 1
  | [], coeff, others, _, _, known => by
    refine ensures_pure ⟨⟨fun f member => known.ranked f (List.mem_reverse.mp member),
      fun f member => known.heavy f (List.mem_reverse.mp member)⟩, ?_⟩
    simp [Store.heft, List.map_reverse, List.prod_reverse]
  | t :: rest, coeff, others, numbers, ranked, known => by
    obtain ⟨⟨sorted, same⟩, later⟩ := List.forall_mem_cons.mp numbers
    obtain ⟨rank, ranks⟩ := List.forall_mem_cons.mp ranked
    have shift : s.heft config others * s.heft config (t :: rest) =
        s.weight config t * s.heft config others * s.heft config rest := by
      simp only [Store.heft, List.map_cons, List.prod_cons]
      ring
    rw [shift]
    unfold gatherProduct
    refine ensures_numeralValue?_bind sorted ?_
    cases literal : s.numeral? t with
    | none =>
      have heavy : 2 ≤ s.weight config t := two_le_weight_of_numeral? sorted
        (same ▸ TermSort.isArith_number isInt) literal
      have more : Factors config s δ (t :: others) :=
        ⟨List.forall_mem_cons.mpr ⟨rank, known.ranked⟩,
          List.forall_mem_cons.mpr ⟨heavy, known.heavy⟩⟩
      exact gatherProduct_heft rest coeff (t :: others) later ranks more
    | some r =>
      dsimp only [Option.map_some]
      split
      · exact ensures_bind (ensures_lift (mkNumeral_bounded config δ 0 isInt)) fun _ _ _ built =>
          ensures_pure built
      · rw [Numeral.mul_rational]
        refine ensures_evaluate?_bind ((gatherProduct_heft rest (coeff * r) others later ranks
          known).imp fun found after _ result => ?_)
        split
        · refine ⟨result.1, result.2.trans ?_⟩
          rw [mul_assoc]
          exact Nat.le_mul_of_pos_left _ (s.one_le_weight config t)
        · exact result

/-- The weight that a power has when powers are collected, if its exponent is at least two; a base
alone counts as its first power. -/
def powerHeft (config : SimplifierConfig) (s : Store) (power : TermId × ℕ) : ℕ :=
  max (s.weight config power.1) 2 ^ (1 + Nat.clog 2 power.2)

/-- The logarithms of a sum of exponents. -/
theorem clog_add_le (j k : ℕ) : Nat.clog 2 (j + k) ≤ 1 + Nat.clog 2 j + Nat.clog 2 k := by
  refine Nat.clog_le_of_le_pow ?_
  have first := Nat.le_pow_clog Nat.one_lt_two j
  have second := Nat.le_pow_clog Nat.one_lt_two k
  have left : 2 ^ Nat.clog 2 j ≤ 2 ^ (Nat.clog 2 j + Nat.clog 2 k) :=
    Nat.pow_le_pow_right Nat.two_pos (Nat.le_add_right ..)
  have right : 2 ^ Nat.clog 2 k ≤ 2 ^ (Nat.clog 2 j + Nat.clog 2 k) :=
    Nat.pow_le_pow_right Nat.two_pos (Nat.le_add_left ..)
  calc j + k ≤ 2 * 2 ^ (Nat.clog 2 j + Nat.clog 2 k) := by omega
    _ = 2 ^ (1 + Nat.clog 2 j + Nat.clog 2 k) := by rw [add_assoc, add_comm 1, pow_succ']

/-- Adding exponents of one base makes powers no heavier. -/
theorem heft_addExponent (config : SimplifierConfig) (s : Store) (base : TermId) (k : ℕ) : ∀ powers : List (TermId × ℕ),
    ((addExponent base k powers).map (powerHeft config s)).prod ≤
      powerHeft config s (base, k) * (powers.map (powerHeft config s)).prod
  | [] => by simp [addExponent]
  | (other, j) :: rest => by
    have tail := heft_addExponent config s base k rest
    unfold addExponent
    split
    · next same =>
      subst same
      rw [List.map_cons, List.prod_cons, List.map_cons, List.prod_cons, ← mul_assoc]
      refine Nat.mul_le_mul_right _ ?_
      unfold powerHeft
      rw [← pow_add]
      have exponents := clog_add_le j k
      exact Nat.pow_le_pow_right (by omega) (by dsimp only; omega)
    · rw [List.map_cons, List.prod_cons, List.map_cons, List.prod_cons, mul_left_comm]
      exact Nat.mul_le_mul_left _ tail

/-- Base and exponent of a factor weigh no more than the factor. -/
theorem powerHeft_basePower (collected : config.mulToPower = true)
    (heavy : 2 ≤ s.weight config t) : powerHeft config s (basePower s t) ≤ s.weight config t := by
  have alone : powerHeft config s (t, 1) = s.weight config t := by
    simp [powerHeft, max_eq_left heavy]
  unfold basePower
  split
  · next base e view =>
    split
    · next r literal =>
      split
      · rw [Store.weight_of_view config view]
        simp only [Op.weigh, SimplifierConfig.powerWeight, collected, Store.gauge, literal,
          powerHeft, List.map_cons, List.headD_cons, Option.getD_some, if_true]
        refine Nat.pow_le_pow_right (by omega) (Nat.add_le_add_left ?_ 1)
        exact Nat.clog_mono_right 2 (le_max_left ..)
      · exact alone.le
    · exact alone.le
  · exact alone.le

/-- Collecting factors into powers makes them no heavier. -/
theorem groupPowers_heft {factors : List TermId} (collected : config.mulToPower = true)
    (numbers : s.Numbers Γ isInt factors) (known : Factors config s δ factors) :
    (groupPowers factors).Ensures config s fun terms after => (∀ f ∈ terms, after.Ranked δ f) ∧
      after.heft config terms ≤ s.heft config factors := by
  have collect : ∀ (factors : List TermId) (powers : List (TermId × ℕ)),
      s.Numbers Γ isInt factors → Factors config s δ factors →
      (∀ power ∈ powers, s.Ranked δ power.1 ∧ 0 < power.2) →
      let all := factors.foldl (fun powers t =>
        addExponent (basePower s t).1 (basePower s t).2 powers) powers
      (∀ power ∈ all, s.Ranked δ power.1 ∧ 0 < power.2) ∧
        (all.map (powerHeft config s)).prod ≤
          (powers.map (powerHeft config s)).prod * s.heft config factors := by
    intro factors
    induction factors with
    | nil => exact fun powers _ _ known => ⟨known, by simp [Store.heft]⟩
    | cons t rest tail =>
      intro powers numbers known positive
      obtain ⟨⟨sorted, same⟩, later⟩ := List.forall_mem_cons.mp numbers
      obtain ⟨rank, ranks⟩ := List.forall_mem_cons.mp known.ranked
      obtain ⟨heavy, others⟩ := List.forall_mem_cons.mp known.heavy
      have base : s.Ranked δ (basePower s t).1 := basePower_all Store.Ranked.below rank
      have more := forall_addExponent (P := s.Ranked δ) ⟨base, basePower_positive s t⟩
        powers positive
      obtain ⟨all, light⟩ := tail _ later ⟨ranks, others⟩ more
      refine ⟨all, light.trans ?_⟩
      have added := heft_addExponent config s (basePower s t).1 (basePower s t).2 powers
      have factor := powerHeft_basePower collected heavy
      simp only [Store.heft, List.map_cons, List.prod_cons]
      calc _ ≤ powerHeft config s (basePower s t) * (powers.map (powerHeft config s)).prod *
            s.heft config rest := Nat.mul_le_mul_right _ added
        _ ≤ s.weight config t * (powers.map (powerHeft config s)).prod * s.heft config rest :=
          Nat.mul_le_mul_right _ (Nat.mul_le_mul_right _ factor)
        _ = _ := by rw [mul_comm (s.weight config t), mul_assoc]; rfl
  obtain ⟨all, light⟩ := collect factors [] numbers known (by simp)
  unfold groupPowers
  refine ensures_peek_bind ?_
  change Rule.Ensures (List.mapM _ (factors.foldl (fun powers t =>
    addExponent (basePower s t).1 (basePower s t).2 powers) []) >>= _) _ _ _
  generalize factors.foldl _ [] = powers at all light
  have each : ∀ power ∈ powers, ∀ now, s.Extends now →
      Rule.Ensures (if power.2 = 1 then pure power.1 else do
          let e ← liftM (mkInt (Int.ofNat power.2))
          liftM (mkApp .power [power.1, e])) config now fun t after =>
        after.Bounded config δ t (powerHeft config s power) := by
    rintro ⟨base, k⟩ member now grown
    obtain ⟨⟨inside, rank⟩, positive⟩ := all _ member
    have known : now.Bounded config δ base _ := (Store.Bounded.self inside rank).mono grown
    dsimp only at known positive ⊢
    split
    · next one =>
      refine ensures_pure (known.le ?_)
      simp [powerHeft, one]
    · next other =>
      refine ensures_bind (ensures_lift (mkInt_bounded config δ (Int.ofNat k)))
        fun e after more literal => ?_
      refine ensures_lift ((mkPower_bounded (known.mono more) literal).imp
        fun t _ _ built => built.le ?_)
      have several : max k 2 = k := by omega
      simp [SimplifierConfig.powerWeight, collected, powerHeft, several]
  refine ensures_bind (ensures_mapM_bounded each) fun terms after _ built => ensures_pure ?_
  have order := ascending_perm terms
  refine ⟨fun f member => Store.Bounded.ranked_all built f (order.mem_iff.mp member), ?_⟩
  have weights := List.Forall₂.prod_le_prod' (Store.Bounded.weights_le built)
  unfold Store.heft at light ⊢
  rw [(order.map _).prod_eq]
  exact weights.trans (light.trans (by simp))

/-- The summands of a sum weigh less than the sum, with a surcharge for each. -/
theorem sum_weight_summands (config : SimplifierConfig) (head : s.op a = .add) :
    ((s.summands a).map (s.weight config)).sum + (s.summands a).length + 2 ≤
      s.weight config a := by
  have each := List.sum_le_sum (l := s.args a) fun b _ => s.sum_weight_flattenTo config a b
  rw [Store.weight_eq, head, Store.summands, Store.flattenTo, if_pos head]
  simp only [Op.weigh, List.map_map, Function.comp_def]
  refine Nat.add_le_add_right (le_trans (le_of_eq ?_) each) 2
  rw [List.flatMap_def, List.map_flatten, List.sum_flatten, List.map_map, List.map_map]
  simp [Function.comp_def, List.sum_map_add]

/-- What is not a sum is its only summand. -/
theorem summands_of_not_sum (head : s.op a ≠ .add) : s.summands a = [a] := by
  rw [Store.summands, Store.flattenTo, if_neg head]

/-- The summands of factors weigh no more than the factors, and there are no more of them. -/
theorem prod_sums_le (config : SimplifierConfig) (s : Store) (factors : List TermId) :
    (factors.map fun f => ((s.summands f).map (s.weight config)).sum).prod ≤
        s.heft config factors ∧
      (factors.map fun f => (s.summands f).length).prod ≤ s.heft config factors := by
  have each : ∀ f, ((s.summands f).map (s.weight config)).sum ≤ s.weight config f ∧
      (s.summands f).length ≤ s.weight config f := by
    intro f
    by_cases head : s.op f = .add
    · have light := sum_weight_summands config head
      omega
    · rw [summands_of_not_sum head]
      simpa using s.one_le_weight config f
  exact ⟨List.prod_le_prod' fun f _ => (each f).1, List.prod_le_prod' fun f _ => (each f).2⟩

/-- The summands of factors weigh less than the factors even when each choice is counted, if one of
the factors is a sum. -/
theorem prod_sums_lt (config : SimplifierConfig) : ∀ {factors : List TermId},
    (∃ f ∈ factors, s.op f = .add) →
    (factors.map fun f => ((s.summands f).map (s.weight config)).sum).prod +
      (factors.map fun f => (s.summands f).length).prod + 2 ≤ s.heft config factors
  | f :: rest, sum => by
    have weights := prod_sums_le config s rest
    have some := s.one_le_heft config rest
    have product : s.heft config (f :: rest) = s.weight config f * s.heft config rest :=
      List.prod_cons
    rw [product, List.map_cons, List.prod_cons, List.map_cons, List.prod_cons]
    generalize sums : (rest.map fun f => ((s.summands f).map (s.weight config)).sum).prod = others
      at weights
    generalize counts : (rest.map fun f => (s.summands f).length).prod = count at weights
    by_cases head : s.op f = .add
    · have light := sum_weight_summands config head
      calc _ ≤ ((s.summands f).map (s.weight config)).sum * s.heft config rest +
            (s.summands f).length * s.heft config rest + 2 * s.heft config rest :=
          Nat.add_le_add (Nat.add_le_add (Nat.mul_le_mul_left _ weights.1)
            (Nat.mul_le_mul_left _ weights.2)) (by omega)
        _ = (((s.summands f).map (s.weight config)).sum + (s.summands f).length + 2) * s.heft config rest := by
          ring
        _ ≤ s.weight config f * s.heft config rest := Nat.mul_le_mul_right _ light
    · obtain ⟨g, member, inner⟩ := sum
      obtain rfl | member := List.mem_cons.mp member
      · exact absurd inner head
      have tail := prod_sums_lt config ⟨g, member, inner⟩
      have positive := s.one_le_weight config f
      rw [summands_of_not_sum head]
      simp only [List.map_cons, List.map_nil, List.sum_cons, List.sum_nil, List.length_singleton,
        add_zero, one_mul]
      rw [sums, counts] at tail
      calc _ ≤ s.weight config f * others + s.weight config f * (count + 2) := by
            rw [add_assoc]
            exact Nat.add_le_add_left (Nat.le_mul_of_pos_left _ positive) _
        _ = s.weight config f * (others + count + 2) := by ring
        _ ≤ s.weight config f * s.heft config rest := Nat.mul_le_mul_left _ tail

/-- Multiplying out makes a product lighter. -/
theorem distribute_bounded {c : ℚ} {factors : List TermId} (ranked : ∀ f ∈ factors, s.Ranked δ f)
    (sum : ∃ f ∈ factors, s.op f = .add) :
    (distribute (.rational c) factors isInt).Ensures config s fun r after =>
      ∃ m < 2 * s.heft config factors, after.Bounded config δ r m := by
  have light := prod_sums_lt config sum
  unfold distribute
  refine ensures_bind (mkNumber_bounded δ c isInt) fun lead middle grown literal => ?_
  refine ensures_peek_bind ?_
  have inside := fun f factor => (ranked f factor).1
  rw [grown.map_summands_eq inside]
  have parts : ∀ summands ∈ factors.map s.summands, ∀ a ∈ summands, middle.Ranked δ a := by
    intro summands member a part
    obtain ⟨f, factor, rfl⟩ := List.mem_map.mp member
    exact (Store.flattenTo_all Store.Ranked.below .add (f + 1) (ranked f factor) a part).mono grown
  have all := mem_of_mem_choices (middle.Ranked δ) parts [[lead]] (by simpa using literal.ranked)
  have weights := sumOfProducts_choices (middle.weight config) (factors.map s.summands) [[lead]]
  have count := sumOfProducts_choices (fun _ => 1) (factors.map s.summands) [[lead]]
  generalize List.foldl _ [[lead]] _ = products at all weights count
  refine ensures_bind (ensures_mapM_bounded fun p member now more => ensures_lift (mkMul_bounded
    (Store.Bounded.mono_all (Store.Bounded.self_all config (all p member)) more)))
    fun terms after _ built => ?_
  refine ensures_lift ((mkAdd_bounded built).imp fun r _ _ known => ⟨_, ?_, known⟩)
  have same : (factors.map s.summands).map (fun summands => (summands.map
      (middle.weight config)).sum) = factors.map fun f =>
        ((s.summands f).map (s.weight config)).sum := by
    rw [List.map_map]
    refine List.map_congr_left fun f factor => congrArg List.sum (List.map_congr_left fun a part => ?_)
    exact grown.weight_eq config
      (Store.flattenTo_member (K := .all) .add (f + 1) (inside f factor) a part)
  rw [same] at weights
  have lead_one : sumOfProducts (middle.weight config) [[lead]] ≤ 1 := by
    simpa [sumOfProducts] using literal.weight_le
  have sum : sumOfProducts (middle.weight config) products ≤
      (factors.map fun f => ((s.summands f).map (s.weight config)).sum).prod := by
    rw [weights]
    exact (Nat.mul_le_mul_right _ lead_one).trans (one_mul _).le
  have length : products.length = (factors.map fun f => (s.summands f).length).prod := by
    simpa [sumOfProducts, Function.comp_def] using count
  have total : ((products.map fun p => 2 * (p.map (middle.weight config)).prod).map (· + 1)).sum =
      2 * sumOfProducts (middle.weight config) products + products.length := by
    simp [sumOfProducts, Function.comp_def, List.sum_map_add, List.sum_map_mul_left]
  rw [total]
  omega

/-- A literal times a sum is heavier than the sum of the products. -/
theorem scaleSum_falls {c : ℚ} {f : TermId} (known : s.Bounded config δ f (s.weight config f))
    (view : s.view f = (.add, args)) :
    (scaleSum (.rational c) args isInt).Ensures config s fun o after =>
      o.Falls after config δ (2 * s.weight config f) := by
  obtain ⟨head, rfl⟩ := Store.view_eq_iff.mp view
  unfold scaleSum
  refine ensures_bind (mkNumber_bounded δ c isInt) fun lead middle grown literal => ?_
  refine ensures_bind (ensures_mapM_bounded fun a member now more =>
    ensures_lift (mkMul_bounded (.cons (literal.mono more)
      (.cons ((known.of_mem_args member).mono (grown.trans more)) .nil)))) fun terms after _ built => ?_
  refine ensures_revisit (mkAdd_bounded built) ?_
  have each : (((s.args f).map fun a => 2 * s.weight config a + 1)).sum ≤
      ((s.args f).map fun a => 2 * (s.weight config a + 1)).sum :=
    List.sum_le_sum fun a _ => by omega
  rw [List.sum_map_mul_left] at each
  rw [Store.weight_eq config s f, head]
  simp only [Op.weigh, List.map_map, Function.comp_def, List.prod_cons, List.prod_nil, one_mul,
    mul_one]
  omega

/-- A literal times factors. -/
theorem mkProduct_falls {c : ℚ} {factors : List TermId} (ranked : ∀ f ∈ factors, s.Ranked δ f) :
    (mkProduct (.rational c) factors args isInt).Ensures config s fun o after =>
      o.Falls after config δ (2 * s.heft config factors) := by
  have each := Store.Bounded.self_all config ranked
  have leading : (if (Numeral.rational c).asRational? = some 1 then pure [] else
      (fun c => [c]) <$> mkNumber (.rational c) isInt : Rule (List TermId)).Ensures config s
        fun lead after => ∃ ns, List.Forall₂ (after.Bounded config δ) lead ns ∧ ns.prod = 1 := by
    split
    · exact ensures_pure ⟨[], .nil, rfl⟩
    · rw [map_eq_pure_bind]
      exact ensures_bind (mkNumber_bounded δ c isInt) fun literal after _ built =>
        ensures_pure ⟨[1], .cons built .nil, rfl⟩
  have some : 1 ≤ 2 * s.heft config factors := by
    have := s.one_le_heft config factors
    omega
  unfold mkProduct
  refine ensures_ite_bind leading fun lead after grown known => ?_
  obtain ⟨ns, lead, one⟩ := known
  have all := List.rel_append lead (Store.Bounded.mono_all each grown)
  dsimp only
  split
  · exact ensures_pure trivial
  split
  · exact ensures_done ((mkNumeral_bounded config δ 1 isInt).imp fun _ _ _ built => built.le some)
  · refine ensures_done ((mkMul_bounded all).imp fun _ _ _ built => built.le ?_)
    simp [Store.heft, one]

/-- Product. -/
theorem reduceMul_falls (known : s.Number Γ I isInt t x) (rank : s.rank t ≤ δ)
    (view : s.view t = (.mul, args)) :
    (reduceMul t args).Ensures config s fun o after => o.Falls after config δ (s.weight config t) := by
  have numbers := numbers_of_view known view (.inr rfl)
  have ranked : ∀ a ∈ args, s.Ranked δ a :=
    (Store.view_eq_iff.mp view).2 ▸ Store.Ranked.below t ⟨known.inside, rank⟩
  have whole := numbers_flatMap numbers (.inr rfl)
  have parts : 2 * s.heft config (s.factors args) ≤ s.weight config t := by
    rw [Store.weight_of_view config view, Store.heft, Store.factors, List.flatMap_def,
      List.map_flatten, List.prod_flatten, List.map_map, List.map_map]
    exact Nat.mul_le_mul_left 2 (List.prod_le_prod' fun a _ => s.prod_weight_flattenTo config _ a)
  unfold reduceMul
  refine ensures_peek_bind (ensures_peek_bind ?_)
  rw [known.isInt_eq]
  have one : (I.semantics Γ).Literal isInt (.rational 1) ((1 : ℚ) : ℝ) :=
    .ofRat fun _ => Rational.isIntegral_one
  refine ensures_bind ((Semantics.gatherProduct_means (M := I.semantics Γ) (s.factors args)
    (.rational 1) [] _ whole one (List.forall_mem_nil _)).and (gatherProduct_heft (s.factors args) 1 [] whole
    (ranked_flatMap .mul ranked) ⟨by simp, by simp⟩)) fun found middle _ result => ?_
  split
  · next o => exact ensures_pure (result.2.le (s.one_le_weight config t))
  · next lead factors =>
    obtain ⟨⟨rfl, _, literal, numbers, _⟩, known, light⟩ := result
    obtain ⟨c, rfl⟩ := literal.exists_rational id
    have order := ascending_perm factors
    have numbers : middle.Numbers Γ isInt (ascending factors) :=
      fun a member => numbers a (order.mem_iff.mp member)
    have known : Factors config middle δ (ascending factors) :=
      ⟨fun a member => known.ranked a (order.mem_iff.mp member),
        fun a member => known.heavy a (order.mem_iff.mp member)⟩
    have light : 2 * middle.heft config (ascending factors) ≤ middle.weight config t := by
      rw [Store.heft, (order.map _).prod_eq]
      refine le_trans (Nat.mul_le_mul_left 2 (light.trans ?_)) parts
      simp [Store.heft]
    generalize ascending factors = factors at numbers known light
    refine ensures_read_bind ?_
    have grouped : Rule.Ensures (if config.mulToPower then groupPowers factors else pure factors)
        config middle fun terms after => (∀ f ∈ terms, after.Ranked δ f) ∧
          2 * after.heft config terms ≤ middle.weight config t := by
      split
      · next collected =>
        exact (groupPowers_heft collected numbers known).imp fun terms after _ result =>
          ⟨result.1, (Nat.mul_le_mul_left 2 result.2).trans light⟩
      · exact ensures_pure ⟨known.ranked, light⟩
    refine ensures_ite_bind grouped fun factors after _ known => ?_
    obtain ⟨ranked, light⟩ := known
    have product : (mkProduct (.rational c) factors args isInt).Ensures config after
        fun o last => o.Falls last config δ (middle.weight config t) :=
      (mkProduct_falls ranked).imp fun _ _ _ falls => falls.le light
    refine ensures_peek_bind (ensures_read_bind ?_)
    split
    · next out =>
      simp only [Bool.and_eq_true, List.any_eq_true, beq_iff_eq] at out
      refine ensures_bind (distribute_bounded ranked out.2) fun r _ _ built => ensures_pure ?_
      obtain ⟨m, less, built⟩ := built
      exact ⟨m, less.trans_le light, built⟩
    split
    · next f _ _ =>
      refine ensures_peek_bind ?_
      split
      · next summands view =>
        obtain ⟨inside, rank⟩ := ranked f (by simp)
        refine (scaleSum_falls (.self inside rank) view).imp fun _ _ _ falls => falls.le ?_
        simpa [Store.heft] using light
      · exact product
    · exact product

/-- Negation. -/
theorem reduceNeg_falls (sorted : s.WellSorted Γ a) (known : s.Bounded config δ a n) :
    (reduceNeg t a).Ensures config s fun o after => o.Falls after config δ (2 * n + 2) := by
  unfold reduceNeg
  refine ensures_peek_bind (ensures_numeralValue?_bind sorted ?_)
  cases s.numeral? a with
  | some r =>
    exact ensures_bind (mkNumber_bounded δ (-r) _) fun _ _ _ built =>
      ensures_pure (built.le (by omega))
  | none =>
    refine ensures_bind (ensures_lift (mkNumeral_bounded config δ (-1) _)) fun m _ grown minus => ?_
    exact ensures_revisit (mkMul_bounded (.cons minus (.cons (known.mono grown) .nil)))
      (by simp)

/-- Difference. -/
theorem reduceSub_falls {m : ℕ} (left : s.Bounded config δ a m) (right : s.Bounded config δ b n) :
    (reduceSub t a b).Ensures config s fun o after =>
      o.Falls after config δ (2 * (m + n) + 5) := by
  unfold reduceSub
  refine ensures_peek_bind ?_
  refine ensures_bind (ensures_lift (mkNumeral_bounded config δ (-1) _)) fun k first grown minus => ?_
  refine ensures_bind (ensures_lift (mkMul_bounded (.cons minus (.cons (right.mono grown) .nil))))
    fun negated middle more product => ?_
  refine ensures_revisit (mkAdd_bounded (.cons (left.mono (grown.trans more))
    (.cons product .nil))) ?_
  simp only [List.map_cons, List.map_nil, List.sum_cons, List.sum_nil, List.prod_cons,
    List.prod_nil]
  omega

end Arithmetic

end Stratagem
