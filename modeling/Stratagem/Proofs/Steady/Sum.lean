import Stratagem.Proofs.Rewriting.Canonical
import Stratagem.Proofs.Rewriting.Sum
import Stratagem.Proofs.Steady.Reasoning
import Stratagem.Rewriting.Power

/-!
# Sums, products and powers are steady

The rules for sums, products and powers look at the summands and factors of their arguments, which
stand before them, and put together monomials whose factors are there.
-/
namespace Stratagem

open Store (Extends Kind)

variable {K : Kind} {s after : Store} {t : TermId} {args : List TermId}

namespace Store

/-- A term of a kind is taken apart into terms of the kind. -/
theorem flattenTo_member (head : Op) (depth : ℕ) (inside : K.Member s t) :
    ∀ a ∈ s.flattenTo head depth t, K.Member s a :=
  flattenTo_all (P := K.Member s) K.of_args head depth inside

/-- The summands of a term are the same when the store has grown. -/
theorem Extends.summands_eq (grown : s.Extends after) (inside : t < s.size) :
    after.summands t = s.summands t := grown.flattenTo_eq .add (t + 1) inside

/-- The summands of terms are the same when the store has grown. -/
theorem Extends.map_summands_eq (grown : s.Extends after) (inside : ∀ a ∈ args, a < s.size) :
    args.map after.summands = args.map s.summands :=
  List.map_congr_left fun a member => grown.summands_eq (inside a member)

/-- The factors of terms are the same when the store has grown. -/
theorem Extends.factors_eq (grown : s.Extends after) (inside : ∀ a ∈ args, a < s.size) :
    after.factors args = s.factors args := by
  unfold factors
  rw [List.flatMap_def, List.flatMap_def, List.map_congr_left fun a member =>
    grown.flattenTo_eq .mul (a + 1) (inside a member)]

/-- The value of a rational literal is the same when the store has grown. -/
theorem Extends.numeral?_eq (grown : s.Extends after) (inside : t < s.size) :
    after.numeral? t = s.numeral? t := by
  rw [numeral?, numeral?, grown.op_eq inside]

/-- A term is the same monomial when the store has grown. -/
theorem Extends.monomial_eq (grown : s.Extends after) (inside : t < s.size) :
    after.monomial t = s.monomial t := by
  unfold monomial
  rw [grown.view_eq inside]
  split
  · rfl
  · next first rest view =>
    rw [grown.numeral?_eq (lt_size_of_view inside view first (List.mem_cons_self ..))]
  · rfl

end Store

/-- The factors of a monomial are of a kind. -/
def Monomial.Within (K : Kind) (s : Store) (m : Monomial) : Prop :=
  ∀ f ∈ m.product, K.Member s f

/-- The factors of all monomials are of a kind. -/
def Monomials.Within (K : Kind) (s : Store) (m : Monomials) : Prop := m.All (K.Member s)

/-- The factors of the monomial of a term of a kind are of the kind. -/
theorem Store.monomial_within (inside : K.Member s t) : (s.monomial t).Within K s :=
  monomial_all (P := K.Member s) K.of_args inside

namespace Monomials

variable {m : Monomials} {c : ℚ} {product : PowerProduct}

/-- There are no factors in the empty collection. -/
theorem within_empty : Within K s {} := all_empty

/-- Factors stay of a kind when the store has grown. -/
theorem Within.mono (known : m.Within K s) (grown : s.Extends after) : m.Within K after :=
  All.imp known fun _ => grown.member

/-- Adding a monomial with factors of the kind. -/
theorem Within.add (known : m.Within K s) (new : ∀ f ∈ product, K.Member s f) :
    (m.add c product).Within K s := All.add known c new

/-- Dropping zeros. -/
theorem Within.retainNonzero (known : m.Within K s) : m.retainNonzero.Within K s :=
  All.retainNonzero known

/-- Ordering. -/
theorem Within.sort (known : m.Within K s) : m.sort.Within K s := All.sort known

end Monomials

/-- The linear form of a term is the same when the store has grown. -/
theorem Store.Extends.linearForm_eq (grown : s.Extends after) (inside : t < s.size) :
    after.linearForm t = s.linearForm t := by
  have parts : ∀ a ∈ s.flattenTo .add (t + 1) t, a < s.size :=
    flattenTo_member (K := .all) .add (t + 1) inside
  unfold linearForm
  rw [grown.summands_eq inside, List.foldl_ext _ _ _ fun form a member => ?_]
  rw [LinearForm.addTerm, LinearForm.addTerm, grown.numeral?_eq (parts a member),
    grown.monomial_eq (parts a member)]

/-- The factors of the linear form of a term of a kind are of the kind. -/
theorem Store.linearForm_within (inside : K.Member s t) : (s.linearForm t).monomials.Within K s :=
  linearForm_all (P := K.Member s) K.of_args inside

namespace Arithmetic

open Terms Rule

variable {config : SimplifierConfig} {a b : TermId} {isInt : Bool}

/-- A multiple of a power product. -/
theorem steady_mkMonomial (c : ℚ) {product : PowerProduct} (isInt : Bool)
    (inside : ∀ f ∈ product, K.Member s f) :
    (mkMonomial c product isInt).Steady config s fun t after => K.Member after t := by
  unfold mkMonomial
  split
  · exact steady_lift (steady_mkNumeral K c isInt)
  · next first rest =>
    obtain ⟨leading, others⟩ := List.forall_mem_cons.mp inside
    have scaled : ((liftM (mkNumeral c isInt) : Rule TermId) >>= fun lead =>
        (liftM (mkMul (lead :: first :: rest)) : Rule TermId)).Steady config s
          fun t after => K.Member after t :=
      steady_lift_bind (steady_mkNumeral K c isInt) fun lead after grown known =>
        steady_lift (steady_mkMul (List.forall_mem_cons.mpr ⟨known, grown.all_member inside⟩))
    split
    · exact steady_lift (steady_mkMul inside)
    refine steady_peek_bind (fun later grown => ?_) (steady_read_bind ?_)
    · rw [Store.algebraic?, Store.algebraic?, grown.op_eq (K.inside leading)]
    split
    · refine steady_compute_bind fun answer => ?_
      split
      · refine steady_bind (steady_mkNumber K _ false) fun lead after grown known => ?_
        exact steady_lift (steady_mkMul
          (List.forall_mem_cons.mpr ⟨known, grown.all_member others⟩))
      · exact scaled
    · exact scaled

/-- The terms of several monomials. -/
theorem steady_mkMonomials {monomials : List Monomial} (isInt : Bool)
    (inside : ∀ m ∈ monomials, m.Within K s) :
    (mkMonomials monomials isInt).Steady config s 
      fun terms after => ∀ t ∈ terms, K.Member after t :=
  steady_mapM_terms K fun m member _ grown =>
    steady_mkMonomial m.coeff isInt (grown.all_member (inside m member))

/-- The sum of an optional literal and monomials. -/
theorem steady_mkSum {constant : Option TermId} {monomials : List Monomial} (isInt : Bool)
    (literal : ∀ c ∈ constant, K.Member s c) (inside : ∀ m ∈ monomials, m.Within K s) :
    (mkSum constant monomials isInt).Steady config s fun t after => K.Member after t := by
  refine steady_bind (steady_mkMonomials isInt inside) fun terms after grown known => ?_
  split
  · exact steady_lift (steady_mkNumeral K 0 isInt)
  · refine steady_lift (steady_mkAdd fun a member => ?_)
    rw [List.mem_append, Option.mem_toList] at member
    exact member.elim (fun here => grown.member (literal a here)) (known a)

/-- Summands are gathered. -/
theorem steady_gatherSum : ∀ (terms : List TermId) (constant : Option Numeral)
    (monomials : Monomials), (∀ a ∈ terms, K.Member s a) → monomials.Within K s →
    (gatherSum terms constant monomials).Steady config s fun answer after =>
      ∀ found ∈ answer, found.2.Within K after
  | [], constant, monomials, _, within =>
    steady_pure fun found same => Option.some.inj same ▸ within
  | t :: rest, constant, monomials, inside, within => by
    obtain ⟨here, others⟩ := List.forall_mem_cons.mp inside
    unfold gatherSum
    refine steady_numeralValue?_bind here fun value => ?_
    split
    · exact steady_gatherSum rest _ _ others within
    · refine steady_evaluate?_bind fun answer => ?_
      split
      · exact steady_gatherSum rest _ _ others within
      · exact steady_pure (by simp)
    · refine steady_peek_bind (fun later grown => grown.monomial_eq (K.inside here)) ?_
      exact steady_gatherSum rest _ _ others (within.add (Store.monomial_within here))

/-- Sum. -/
theorem steady_reduceAdd (there : t < s.size) (inside : ∀ a ∈ args, K.Member s a) :
    (reduceAdd t args).Steady config s (Outcome.Within K) := by
  refine steady_peek_bind
    (fun later grown => by rw [Store.isInt, grown.sortOf_eq (there)]; rfl) ?_
  refine steady_peek_bind (fun later grown => ?_) ?_
  · rw [List.flatMap_def, grown.map_summands_eq (Kind.all_inside inside)]; rfl
  have parts : ∀ a ∈ args.flatMap s.summands, K.Member s a := by
    intro a member
    obtain ⟨b, argument, member⟩ := List.mem_flatMap.mp member
    exact Store.flattenTo_member .add (b + 1) (inside b argument) a member
  refine steady_bind (steady_gatherSum _ none {} parts Monomials.within_empty)
    fun answer after grown within => ?_
  split
  · exact steady_pure .failed
  · next constant monomials =>
    have within := (within _ rfl).retainNonzero
    refine steady_read_bind ?_
    dsimp only
    have ordered : Monomials.Within K after
        (if config.sortSums then monomials.retainNonzero.sort else monomials.retainNonzero) := by
      split
      · exact within.sort
      · exact within
    refine steady_bind (steady_option_mapM fun c _ => steady_mkNumber K c _)
      fun literal middle more known => ?_
    refine steady_bind (steady_mkMonomials _ (ordered.mono more)) fun terms last most others => ?_
    have all : ∀ a ∈ literal.toList ++ terms, K.Member last a := by
      intro a member
      rw [List.mem_append, Option.mem_toList] at member
      exact member.elim (fun here => most.member (known a here)) (others a)
    split
    · exact steady_pure .failed
    split
    · exact steady_result (steady_mkNumeral K 0 _) fun _ => rfl
    · exact steady_result (steady_mkAdd all) fun _ => rfl

/-- Factors are gathered. -/
theorem steady_gatherProduct (isInt : Bool) : ∀ (terms : List TermId) (coeff : Numeral)
    (others : List TermId), (∀ a ∈ terms, K.Member s a) → (∀ a ∈ others, K.Member s a) →
    (gatherProduct isInt terms coeff others).Steady config s fun answer after =>
      match answer with
      | .ok (_, factors) => ∀ f ∈ factors, K.Member after f
      | .error outcome => outcome.Within K after
  | [], coeff, others, _, known => steady_pure fun f member => known f (List.mem_reverse.mp member)
  | t :: rest, coeff, others, inside, known => by
    obtain ⟨here, later⟩ := List.forall_mem_cons.mp inside
    unfold gatherProduct
    refine steady_numeralValue?_bind here fun value => ?_
    split
    · exact steady_gatherProduct isInt rest coeff _ later (List.forall_mem_cons.mpr ⟨here, known⟩)
    · split
      · exact steady_lift_bind (steady_mkNumeral K 0 isInt) fun nought _ _ inside =>
          steady_pure (.of_result? rfl inside)
      · refine steady_evaluate?_bind fun answer => ?_
        split
        · exact steady_gatherProduct isInt rest _ others later known
        · exact steady_pure .failed

/-- Base and exponent of a factor are the same when the store has grown. -/
theorem basePower_eq (grown : s.Extends after) (inside : t < s.size) :
    basePower after t = basePower s t := by
  unfold basePower
  rw [grown.view_eq inside]
  split
  · next base e view => rw [grown.numeral?_eq (Store.lt_size_of_view inside view e (by simp))]
  · rfl

/-- The base of a factor of a kind is of the kind. -/
theorem basePower_member (inside : K.Member s t) : K.Member s (basePower s t).1 :=
  basePower_all (P := K.Member s) K.of_args inside

/-- Bases stay of a kind when an exponent is added. -/
theorem addExponent_member {base : TermId} {k : ℕ} (inside : K.Member s base) :
    ∀ powers : List (TermId × ℕ), (∀ p ∈ powers, K.Member s p.1) →
      ∀ p ∈ addExponent base k powers, K.Member s p.1
  | [], _ => by simpa [addExponent] using inside
  | (other, j) :: rest, known => by
    obtain ⟨here, later⟩ := List.forall_mem_cons.mp known
    unfold addExponent
    split
    · exact List.forall_mem_cons.mpr ⟨here, later⟩
    · exact List.forall_mem_cons.mpr ⟨here, addExponent_member inside rest later⟩

/-- Ordering keeps the terms. -/
theorem ascending_member {terms : List TermId} (inside : ∀ a ∈ terms, K.Member s a) :
    ∀ a ∈ ascending terms, K.Member s a :=
  fun a member => inside a ((List.mergeSort_perm terms _).mem_iff.mp member)

/-- Factors with one base are collected. -/
theorem steady_groupPowers {factors : List TermId} (inside : ∀ f ∈ factors, K.Member s f) :
    (groupPowers factors).Steady config s fun terms after => ∀ t ∈ terms, K.Member after t := by
  refine steady_peek_bind (fun later grown => ?_) ?_
  · exact List.foldl_ext _ _ _ fun powers t member => by
      rw [basePower_eq grown (K.inside (inside t member))]
  have bases := List.foldlRecOn (motive := fun powers : List (TermId × ℕ) =>
      ∀ p ∈ powers, K.Member s p.1) factors
    (fun powers t => addExponent (basePower s t).1 (basePower s t).2 powers) (b := []) nofun
    fun powers known t member =>
      addExponent_member (basePower_member (inside t member)) powers known
  refine steady_bind (steady_mapM_terms K fun p member now grown => ?_)
    fun terms after _ known => steady_pure (ascending_member known)
  have base := grown.member (bases p member)
  dsimp only
  split
  · exact steady_pure base
  · refine steady_lift_bind (steady_mkInt K _) fun e after more known => ?_
    exact steady_lift (steady_mkApp K rfl (by simp [known, more.member base]))

/-- The members of a product of one choice for each factor are members of the choices. -/
theorem mem_of_mem_choices {choices : List (List TermId)} (good : TermId → Prop)
    (each : ∀ summands ∈ choices, ∀ a ∈ summands, good a) :
    ∀ products : List (List TermId), (∀ p ∈ products, ∀ a ∈ p, good a) →
      ∀ p ∈ choices.foldl (fun products summands =>
        products.flatMap fun p => summands.map fun t => p ++ [t]) products, ∀ a ∈ p, good a := by
  induction choices with
  | nil => exact fun products known => known
  | cons summands rest later =>
    obtain ⟨here, others⟩ := List.forall_mem_cons.mp each
    refine fun products known => later others _ fun p member a inside => ?_
    obtain ⟨q, before, member⟩ := List.mem_flatMap.mp member
    obtain ⟨t, chosen, rfl⟩ := List.mem_map.mp member
    obtain old | new := List.mem_append.mp inside
    · exact known q before a old
    · exact List.mem_singleton.mp new ▸ here t chosen

/-- All products of a literal and one summand of each factor. -/
theorem steady_distribute (coeff : Numeral) {factors : List TermId} (isInt : Bool)
    (inside : ∀ f ∈ factors, K.Member s f) :
    (distribute coeff factors isInt).Steady config s fun t after => K.Member after t := by
  refine steady_bind (steady_mkNumber K coeff isInt) fun lead middle grown known => ?_
  have inside := grown.all_member inside
  refine steady_peek_bind (fun later more => more.map_summands_eq (Kind.all_inside inside)) ?_
  have parts : ∀ summands ∈ factors.map middle.summands, ∀ a ∈ summands, K.Member middle a := by
    intro summands member a part
    obtain ⟨f, factor, rfl⟩ := List.mem_map.mp member
    exact Store.flattenTo_member .add (f + 1) (inside f factor) a part
  have all := mem_of_mem_choices (K.Member middle) parts [[lead]] (by simpa using known)
  refine steady_bind (steady_mapM_terms K fun p member now more => ?_) fun terms _ _ known => ?_
  · exact steady_lift (steady_mkMul (more.all_member (all p member)))
  · exact steady_lift (steady_mkAdd known)

/-- A literal times a sum. -/
theorem steady_scaleSum (coeff : Numeral) {summands : List TermId} (isInt : Bool)
    (inside : ∀ a ∈ summands, K.Member s a) :
    (scaleSum coeff summands isInt).Steady config s (Outcome.Within K) := by
  refine steady_bind (steady_mkNumber K coeff isInt) fun lead middle grown known => ?_
  refine steady_bind (steady_mapM_terms K fun a member now more => ?_) fun terms _ _ known => ?_
  · have here := (grown.trans more).member (inside a member)
    exact steady_lift (steady_mkMul (by simp [here, more.member known]))
  · exact steady_result (steady_mkAdd known) fun _ => rfl

/-- A literal times factors. -/
theorem steady_mkProduct (coeff : Numeral) {factors : List TermId} (args : List TermId)
    (isInt : Bool) (inside : ∀ f ∈ factors, K.Member s f) :
    (mkProduct coeff factors args isInt).Steady config s (Outcome.Within K) := by
  have leading : (if coeff.asRational? = some 1 then pure [] else
      (fun c => [c]) <$> mkNumber coeff isInt : Rule (List TermId)).Steady config s
        fun lead after => ∀ a ∈ lead, K.Member after a := by
    split
    · exact steady_pure nofun
    · refine steady_map ((steady_mkNumber K coeff isInt).imp fun c after _ known => ?_)
      exact List.forall_mem_singleton.mpr known
  refine steady_ite_bind leading fun lead after grown known => ?_
  have all : ∀ a ∈ lead ++ factors, K.Member after a :=
    List.forall_mem_append.mpr ⟨known, grown.all_member inside⟩
  dsimp only
  split
  · exact steady_pure .failed
  split
  · exact steady_result (steady_mkNumeral K 1 isInt) fun _ => rfl
  · exact steady_result (steady_mkMul all) fun _ => rfl

/-- Product. -/
theorem steady_reduceMul (there : t < s.size) (inside : ∀ a ∈ args, K.Member s a) :
    (reduceMul t args).Steady config s (Outcome.Within K) := by
  refine steady_peek_bind
    (fun later grown => by rw [Store.isInt, grown.sortOf_eq (there)]; rfl) ?_
  refine steady_peek_bind (fun later grown => grown.factors_eq (Kind.all_inside inside)) ?_
  have parts : ∀ a ∈ s.factors args, K.Member s a := by
    intro a member
    obtain ⟨b, argument, member⟩ := List.mem_flatMap.mp member
    exact Store.flattenTo_member .mul (b + 1) (inside b argument) a member
  refine steady_bind (steady_gatherProduct _ _ _ [] parts (by simp))
    fun answer after grown known => ?_
  split
  · exact steady_pure known
  · next coeff factors =>
    have ordered : ∀ f ∈ ascending factors, K.Member after f := ascending_member known
    have grouped : (if config.mulToPower then groupPowers (ascending factors)
        else pure (ascending factors)).Steady config after
          fun terms last => ∀ f ∈ terms, K.Member last f := by
      split
      · exact steady_groupPowers ordered
      · exact steady_pure ordered
    refine steady_read_bind (steady_ite_bind grouped fun factors last more known => ?_)
    refine steady_peek_bind (fun later most => ?_) (steady_read_bind ?_)
    · refine Bool.eq_iff_iff.mpr ?_
      rw [List.any_eq_true, List.any_eq_true]
      refine exists_congr fun f => and_congr_right fun member => ?_
      rw [most.op_eq (K.inside (known f member))]
    split
    · exact steady_bind (steady_distribute coeff _ known) fun sum _ _ inside =>
        steady_pure (.of_result? rfl inside)
    split
    · next f _ _ =>
      have factor : K.Member last f := known f (List.mem_singleton_self f)
      refine steady_peek_bind (fun later most => most.view_eq (K.inside factor)) ?_
      split
      · next view => exact steady_scaleSum coeff _ (K.of_view factor view)
      · exact steady_mkProduct coeff args _ known
    · exact steady_mkProduct coeff args _ known

/-- Negation. -/
theorem steady_reduceNeg (there : t < s.size) (inside : K.Member s a) :
    (reduceNeg t a).Steady config s (Outcome.Within K) := by
  refine steady_peek_bind
    (fun later grown => by rw [Store.isInt, grown.sortOf_eq (there)]; rfl) ?_
  refine steady_numeralValue?_bind inside fun value => ?_
  split
  · exact steady_bind (steady_mkNumber K _ _) fun negated _ _ known =>
      steady_pure (.of_result? rfl known)
  · refine steady_lift_bind (steady_mkNumeral K _ _) fun lead after grown known => ?_
    exact steady_result (steady_mkMul (by simp [known, grown.member inside])) fun _ => rfl

/-- Difference. -/
theorem steady_reduceSub (there : t < s.size) (first : K.Member s a)
    (second : K.Member s b) : (reduceSub t a b).Steady config s (Outcome.Within K) := by
  refine steady_peek_bind
    (fun later grown => by rw [Store.isInt, grown.sortOf_eq (there)]; rfl) ?_
  refine steady_lift_bind (steady_mkNumeral K _ _) fun lead middle grown known => ?_
  refine steady_lift_bind (steady_mkMul (K := K) (by simp [known, grown.member second]))
    fun negated after more known => ?_
  have first := (grown.trans more).member first
  exact steady_result (steady_mkAdd (by simp [known, first])) fun _ => rfl

/-- The power of a numeral. -/
theorem steady_numeralPower_bind {β : Type} {value : Numeral} {p : ℤ} {q : ℕ}
    {next : Option Numeral → Rule β} {final : β → Store → Prop}
    (steady : ∀ power, (next power).Steady config s final) :
    (numeralPower value p q >>= next).Steady config s final := by
  have computed : (numeralPower value p q).Steady config s fun _ after => after = s := by
    refine steady_evaluate?_bind fun root => ?_
    split
    · exact steady_pure rfl
    refine steady_evaluate?_bind fun powered => ?_
    split
    · exact steady_pure rfl
    split
    · exact steady_evaluate?
    · exact steady_pure rfl
  exact steady_bind computed fun power after _ same => same ▸ steady power

/-- The power of a literal. -/
theorem steady_foldPower (value : Numeral) (y : ℚ) (isInt : Bool) :
    (foldPower value y isInt).Steady config s (Outcome.Within K) := by
  refine steady_read_bind ?_
  dsimp only
  split
  · exact steady_pure .failed
  split
  · exact steady_pure .failed
  split
  · exact steady_pure .failed
  split
  · exact steady_result (steady_mkNumeral K _ isInt) fun _ => rfl
  split
  · exact steady_pure .failed
  refine steady_numeralPower_bind fun power => ?_
  split
  · exact steady_bind (steady_mkNumber K _ isInt) fun power _ _ known =>
      steady_pure (.of_result? rfl known)
  · exact steady_pure .failed

/-- A power with an integral exponent. -/
theorem steady_reduceIntPower (k : ℤ) (there : t < s.size) (inside : K.Member s a) :
    (reduceIntPower t a k).Steady config s (Outcome.Within K) := by
  refine steady_peek_bind (fun later grown => ?_) ?_
  · rw [grown.view_eq (K.inside inside)]
    split
    · next base e view =>
      have exponent : K.Member s e := K.of_view inside view e (by simp)
      rw [reduceIntPower.intPower?, reduceIntPower.intPower?,
        grown.numeral?_eq (K.inside exponent)]
    · rfl
  split
  · next b j found =>
    have base : K.Member s b := by
      split at found
      · next base e view =>
        obtain ⟨j, _, same⟩ := Option.map_eq_some_iff.mp found
        obtain ⟨rfl, rfl⟩ := Prod.mk.inj same
        exact K.of_view inside view base (by simp)
      · cases found
    refine steady_lift_bind (steady_mkInt K _) fun e after grown known => ?_
    exact steady_result (steady_mkApp K rfl (by simp [known, grown.member base])) fun _ => rfl
  split
  · refine steady_peek_bind
      (fun later grown => by rw [Store.isReal, grown.sortOf_eq (there)]; rfl) ?_
    split
    · exact steady_pure .failed
    refine steady_lift_bind (steady_mkReal K 1) fun one first grown known => ?_
    refine steady_lift_bind (steady_mkInt K _) fun e second more exponent => ?_
    have base := (grown.trans more).member inside
    refine steady_lift_bind (steady_mkApp K rfl (by simp [base, exponent]))
      fun p third most power => ?_
    have one := (more.trans most).member known
    exact steady_result (steady_mkApp K rfl (by simp [one, power])) fun _ => rfl
  · refine steady_read_bind
      (steady_peek_bind (fun later grown => by rw [grown.op_eq (K.inside inside)]) ?_)
    split
    · refine steady_result (steady_mkMul fun b member => ?_) fun _ => rfl
      exact (List.eq_of_mem_replicate member) ▸ inside
    · exact steady_pure .failed

/-- A power with a fractional exponent. -/
theorem steady_reduceFractionPower (y : ℚ) (inside : K.Member s a) :
    (reduceFractionPower a y).Steady config s (Outcome.Within K) := by
  unfold reduceFractionPower
  split
  · exact steady_pure .failed
  refine steady_lift_bind (steady_mkReal K _) fun e first grown known => ?_
  refine steady_lift_bind (steady_mkApp K rfl (by simp [known, grown.member inside]))
    fun root second _ known => ?_
  refine steady_lift_bind (steady_mkInt K _) fun k third grown exponent => ?_
  exact steady_result (steady_mkApp K rfl (by simp [exponent, grown.member known])) fun _ => rfl

/-- Power. -/
theorem steady_reducePower (there : t < s.size) (base : K.Member s a)
    (exponent : K.Member s b) : (reducePower t a b).Steady config s (Outcome.Within K) := by
  refine steady_peek_bind
    (fun later grown => by rw [Store.isInt, grown.sortOf_eq (there)]; rfl) ?_
  refine steady_peek_bind
    (fun later grown => by rw [Store.isOne, grown.numeral?_eq (K.inside base)]; rfl) ?_
  split
  · exact steady_result (steady_mkNumeral K 1 _) fun _ => rfl
  refine steady_peek_bind (fun later grown => grown.numeral?_eq (K.inside exponent)) ?_
  split
  · exact steady_pure .failed
  refine steady_peek_bind
    (fun later grown => by rw [Store.isZero, grown.numeral?_eq (K.inside base)]; rfl) ?_
  split
  · exact steady_pure (.of_result? rfl base)
  split
  · split
    · exact steady_pure .failed
    · exact steady_result (steady_mkNumeral K 1 _) fun _ => rfl
  split
  · exact steady_result (steady_mkNumeral K 0 _) fun _ => rfl
  refine steady_numeralValue?_bind base fun value => ?_
  split
  · exact steady_foldPower _ _ _
  split
  · exact steady_reduceIntPower _ there base
  · exact steady_reduceFractionPower _ base

end Arithmetic
end Stratagem
