import Stratagem.Proofs.Rewriting.Comparison
import Stratagem.Proofs.Steady.Connective
import Stratagem.Proofs.Steady.Sum
import Stratagem.Rewriting.Comparison

/-!
# Comparisons are steady

The rules for comparisons of numbers look at the linear forms of both sides, whose factors are
there, and at the factors and casts that they are made of.
-/
namespace Stratagem.Arithmetic

open Store (Extends Kind)
open Terms Rule

variable {K : Kind} {config : SimplifierConfig} {s after : Store} {t a b : TermId}

/-- The operator of a relation is primitive. -/
theorem isPrimitive_op (relation : Relation) : relation.op.isPrimitive = true := by
  cases relation <;> rfl

/-- A comparison. -/
theorem steady_mkComparison (relation : Relation) (first : K.Member s a) (second : K.Member s b) :
    (mkComparison relation a b).Steady config s fun t after => K.Member after t :=
  steady_lift (steady_mkApp K (isPrimitive_op relation) (by simp [first, second]))

/-- A factor compared with zero. -/
theorem steady_reduceZeroFactor? (relation : Relation) (inside : K.Member s t) :
    (reduceZeroFactor? relation t).Steady config s fun answer after =>
      ∀ u ∈ answer, K.Member after u := by
  refine steady_peek_bind (fun later grown => grown.view_eq (K.inside inside)) ?_
  split
  · next base e view =>
    have arguments := K.of_view inside view
    have base : K.Member s base := arguments base (by simp)
    refine steady_peek_bind
      (fun later grown => grown.numeral?_eq (K.inside (arguments e (by simp)))) ?_
    split
    · split
      · split
        · exact steady_pure fun u same => Option.some.inj same ▸ base
        split
        · split
          · exact steady_pure fun u same => Option.some.inj same ▸ base
          refine steady_lift_bind (steady_mkInt K 2) fun two middle grown known => ?_
          refine steady_lift_bind (steady_mkApp K rfl (by simp [known, grown.member base]))
            fun square after _ inside => ?_
          exact steady_pure fun u same => Option.some.inj same ▸ inside
        · exact steady_pure nofun
      · exact steady_pure nofun
    · exact steady_pure nofun
  · exact steady_pure nofun

/-- The factors to compare with zero are of the kind of the product. -/
theorem zeroFactors?_member {factors : List TermId} (inside : K.Member s t)
    (found : zeroFactors? s t = some factors) : ∀ f ∈ factors, K.Member s f := by
  unfold zeroFactors? at found
  split at found
  · next view => exact Option.some.inj found ▸ K.of_view inside view
  · exact Option.some.inj found ▸ List.forall_mem_singleton.mpr inside
  · cases found

/-- Choosing from each pair of two lists keeps to their members. -/
theorem zipWith_getD_member {factors : List TermId} {reduced : List (Option TermId)}
    (inside : ∀ f ∈ factors, K.Member s f) (known : ∀ r ∈ reduced, ∀ u ∈ r, K.Member s u) :
    ∀ u ∈ factors.zipWith (fun f r => r.getD f) reduced, K.Member s u := by
  intro u member
  rw [← List.map_uncurry_zip_eq_zipWith] at member
  obtain ⟨⟨f, r⟩, pair, rfl⟩ := List.mem_map.mp member
  obtain ⟨factor, result⟩ := List.of_mem_zip pair
  cases r with
  | none => exact inside f factor
  | some u => exact known _ result u rfl

/-- A comparison of a product with zero. -/
theorem steady_reduceZeroPower? (relation : Relation) (first : K.Member s a)
    (second : K.Member s b) : (reduceZeroPower? relation a b).Steady config s fun answer after =>
      ∀ o ∈ answer, o.Within K after := by
  have isZero {u : TermId} (inside : u < s.size) (later : Store) (grown : s.Extends later) :
      later.isZero u = s.isZero u := by rw [Store.isZero, grown.numeral?_eq inside]; rfl
  refine steady_peek_bind (isZero (K.inside first)) ?_
  refine steady_peek_bind (isZero (K.inside second)) ?_
  split
  · exact steady_pure (by simp)
  have side : K.Member s (if s.isZero a then b else a) := by
    split
    · exact second
    · exact first
  dsimp only
  generalize (if s.isZero a then b else a) = p at side
  refine steady_peek_bind (fun later grown => ?_) ?_
  · rw [zeroFactors?, zeroFactors?, grown.view_eq (K.inside side)]
  split
  · exact steady_pure (by simp)
  · next factors found =>
    have inside := zeroFactors?_member side found
    refine steady_peek_bind
      (fun later grown => by rw [Store.isInt, grown.sortOf_eq (K.inside side)]; rfl) ?_
    refine steady_bind (steady_mapM (fun r before after grown known u member =>
      grown.member (known u member)) factors fun f member now grown =>
        steady_reduceZeroFactor? relation (grown.member (inside f member)))
      fun reduced middle grown known => ?_
    split
    · exact steady_pure (by simp)
    refine steady_lift_bind (steady_mkMul (zipWith_getD_member (grown.all_member inside) known))
      fun product later _ product => ?_
    refine steady_lift_bind (steady_mkNumeral K 0 _) fun nought last grown nought => ?_
    have product := grown.member product
    split
    · exact steady_bind (steady_mkComparison relation nought product) fun r _ _ inside =>
        steady_pure fun o same => Option.some.inj same ▸ .of_result? rfl inside
    · exact steady_bind (steady_mkComparison relation product nought) fun r _ _ inside =>
        steady_pure fun o same => Option.some.inj same ▸ .of_result? rfl inside

/-- The integer factors that casts and literals stand for. -/
theorem steady_stripFactors : ∀ (factors ints : List TermId) (found : Bool) {s : Store},
    (∀ f ∈ factors, K.Member s f) → (∀ u ∈ ints, K.Member s u) →
    (stripFactors factors ints found).Steady config s fun answer after =>
      ∀ p ∈ answer, ∀ u ∈ p.1, K.Member after u
  | [], ints, found, s, _, known => steady_pure fun p same u member => by
    obtain rfl := Option.some.inj same
    exact known u (List.mem_reverse.mp member)
  | f :: rest, ints, found, s, inside, known => by
    obtain ⟨here, others⟩ := List.forall_mem_cons.mp inside
    unfold stripFactors
    refine steady_peek_bind (fun later grown => grown.numeral?_eq (K.inside here)) ?_
    split
    · split
      · refine steady_lift_bind (steady_mkInt K _) fun n after grown literal => ?_
        exact steady_stripFactors rest _ found (grown.all_member others)
          (List.forall_mem_cons.mpr ⟨literal, grown.all_member known⟩)
      · exact steady_pure nofun
    refine steady_peek_bind (fun later grown => grown.view_eq (K.inside here)) ?_
    split
    · next u view =>
      have cast : K.Member s u := K.of_view here view u (by simp)
      exact steady_stripFactors rest _ true others (List.forall_mem_cons.mpr ⟨cast, known⟩)
    · exact steady_pure nofun

/-- The factors of a product of a kind are of the kind. -/
theorem productFactors_member (inside : K.Member s t) : ∀ f ∈ productFactors s t, K.Member s f := by
  unfold productFactors
  split
  · next view => exact K.of_view inside view
  · exact List.forall_mem_singleton.mpr inside

/-- The integer summands that real summands stand for. -/
theorem steady_stripSummands : ∀ (terms ints : List TermId) (found : Bool) {s : Store},
    (∀ a ∈ terms, K.Member s a) → (∀ u ∈ ints, K.Member s u) →
    (stripSummands terms ints found).Steady config s fun answer after =>
      ∀ p ∈ answer, ∀ u ∈ p.1, K.Member after u
  | [], ints, found, s, _, known => steady_pure fun p same u member => by
    obtain rfl := Option.some.inj same
    exact known u (List.mem_reverse.mp member)
  | t :: rest, ints, found, s, inside, known => by
    obtain ⟨here, others⟩ := List.forall_mem_cons.mp inside
    unfold stripSummands
    refine steady_peek_bind (fun later grown => ?_) ?_
    · rw [productFactors, productFactors, grown.view_eq (K.inside here)]
    refine steady_bind (steady_stripFactors _ [] found (productFactors_member here) (by simp))
      fun answer middle grown product => ?_
    split
    · refine steady_lift_bind (steady_mkMul (product _ rfl)) fun n after more inside => ?_
      have grown := grown.trans more
      exact steady_stripSummands rest _ _ (grown.all_member others)
        (List.forall_mem_cons.mpr ⟨inside, grown.all_member known⟩)
    · exact steady_pure (by simp)

/-- The integer term that a real term stands for. -/
theorem steady_stripToReal? (inside : K.Member s t) :
    (stripToReal? t).Steady config s fun answer after => ∀ p ∈ answer, K.Member after p.1 := by
  refine steady_peek_bind
    (fun later grown => by rw [Store.isReal, grown.sortOf_eq (K.inside inside)]; rfl) ?_
  split
  · exact steady_pure (by simp)
  refine steady_peek_bind (fun later grown => grown.summands_eq (K.inside inside)) ?_
  have summands := Store.flattenTo_member .add (t + 1) inside
  refine steady_bind (steady_stripSummands _ [] false summands (by simp))
    fun answer middle _ known => ?_
  split
  · refine steady_lift_bind (steady_mkAdd (known _ rfl)) fun sum after _ inside => ?_
    exact steady_pure fun p same => Option.some.inj same ▸ inside
  · exact steady_pure (by simp)

/-- The integer terms that both sides of a comparison stand for. -/
theorem steady_stripSides? (first : K.Member s a) (second : K.Member s b) :
    (stripSides? a b).Steady config s fun answer after =>
      ∀ p ∈ answer, K.Member after p.1 ∧ K.Member after p.2 := by
  refine steady_read_bind ?_
  split
  · exact steady_pure nofun
  refine steady_bind (steady_stripToReal? first) fun left middle grown known => ?_
  refine steady_bind (steady_stripToReal? (grown.member second)) fun right after more other => ?_
  split
  · refine steady_pure fun p same => ?_
    split at same
    · obtain rfl := Option.some.inj same
      exact ⟨more.member (known _ rfl), other _ rfl⟩
    · cases same
  · exact steady_pure nofun

/-- The factors of both sides of a balance are of a kind. -/
abbrev Balance.Within (K : Kind) (s : Store) (b : Balance) : Prop := b.All (K.Member s)

/-- A comparison has the same balance when the store has grown. -/
theorem balance_eq (grown : s.Extends after) (lhsOnly : Bool) (relation : Relation)
    (first : a < s.size) (second : b < s.size) :
    balance after lhsOnly relation a b = balance s lhsOnly relation a b := by
  rw [balance, balance, grown.linearForm_eq first, grown.linearForm_eq second]

/-- The comparison of two terms. -/
theorem steady_finishComparison (t : TermId) (relation : Relation) (first : K.Member s a)
    (second : K.Member s b) :
    (finishComparison t relation a b).Steady config s (Outcome.Within K) := by
  refine steady_bind (steady_mkComparison relation first second) fun r middle grown inside => ?_
  have sides : ∀ u ∈ [a, b], K.Member middle u := grown.all_member (by simp [first, second])
  refine steady_read_bind ?_
  split
  · refine steady_lift_bind (steady_mkApp K rfl sides) fun le later more known => ?_
    refine steady_lift_bind (steady_mkApp K rfl (more.all_member sides))
      fun ge last more other => ?_
    exact Connective.steady_conjunction 1 (by simp [other, more.member known])
  · refine steady_pure ?_
    split
    · exact .failed
    · exact .of_result? rfl inside

/-- A bound on a power product. -/
theorem steady_reduceBound (t : TermId) (relation : Relation) {m : Monomial} (bound : ℚ)
    (isInt : Bool) (inside : m.Within K s) :
    (reduceBound t relation m bound isInt).Steady config s (Outcome.Within K) := by
  unfold reduceBound
  dsimp only
  generalize (if m.coeff < 0 then relation.flip else relation) = effective
  refine steady_lift_bind (steady_mkMul inside) fun x middle _ product => ?_
  split
  · exact steady_decided false
  · refine steady_lift_bind (steady_mkNumeral K _ isInt) fun n after grown literal => ?_
    exact steady_finishComparison t _ (grown.member product) literal

/-- The comparison of a balance. -/
theorem steady_mkBalance (t : TermId) {balance : Balance} (isInt : Bool)
    (inside : balance.Within K s) :
    (mkBalance t balance isInt).Steady config s (Outcome.Within K) := by
  refine steady_bind (steady_mkSum isInt nofun inside.left) fun left middle grown known => ?_
  have literal : (if balance.bound ≠ 0 ∨ balance.right.isEmpty then
      some <$> (liftM (mkNumeral balance.bound isInt) : Rule TermId) else pure none).Steady
        config middle fun constant after => ∀ c ∈ constant, K.Member after c := by
    split
    · refine steady_map ((steady_lift (steady_mkNumeral K _ isInt)).imp fun c after _ inside => ?_)
      exact fun d same => Option.some.inj same ▸ inside
    · exact steady_pure nofun
  refine steady_ite_bind literal fun constant later more literal => ?_
  have left := more.member known
  dsimp only
  split
  · exact steady_pure_bind (steady_finishComparison t _ left (literal _ rfl))
  · have right : Monomials.Within K later balance.right :=
      Monomials.Within.mono inside.right (grown.trans more)
    refine steady_bind (steady_mkSum isInt literal right)
      fun right last most known => ?_
    exact steady_finishComparison t _ (most.member left) known

/-- A comparison of sums. -/
theorem steady_reduceBalance (t : TermId) {balance : Balance} (isInt : Bool)
    (inside : balance.Within K s) :
    (reduceBalance t balance isInt).Steady config s (Outcome.Within K) := by
  unfold reduceBalance
  split
  · exact steady_decided _
  · next m only _ =>
    exact steady_reduceBound t _ _ isInt (inside.left m (only ▸ List.mem_singleton_self m))
  · refine steady_read_bind ?_
    dsimp only
    split
    · exact steady_mkBalance t isInt inside
    split
    · exact steady_decided false
    · next found =>
      exact steady_modify_bind (steady_mkBalance t isInt (Balance.All.divide? inside found))

/-- A comparison of numbers. -/
theorem steady_reduceComparison (t : TermId) (relation : Relation) (first : K.Member s a)
    (second : K.Member s b) :
    (reduceComparison t relation a b).Steady config s (Outcome.Within K) := by
  refine steady_numeralValue?_bind first fun v => steady_numeralValue?_bind second fun w => ?_
  split
  · refine steady_evaluate?_bind fun order => ?_
    split
    · exact steady_decided _
    · exact steady_pure .failed
  refine steady_bind (steady_reduceZeroPower? relation first second)
    fun answer middle grown within => ?_
  split
  · exact steady_pure (within _ rfl)
  have first := grown.member first
  have second := grown.member second
  refine steady_bind (steady_stripSides? first second) fun answer after more known => ?_
  split
  · obtain ⟨left, right⟩ := known _ rfl
    exact steady_bind (steady_mkComparison relation left right) fun r _ _ inside =>
      steady_pure (.of_result? rfl inside)
  have first := more.member first
  have second := more.member second
  refine steady_peek_bind (fun later grown => ?_) (steady_read_bind ?_)
  · simp only [Store.isInt, grown.sortOf_eq, K.inside first, K.inside second]
  refine steady_peek_bind
    (fun later grown => balance_eq grown _ relation (K.inside first) (K.inside second)) ?_
  exact steady_reduceBalance t _
    (balance_all (P := K.Member after) K.of_args _ relation first second)

end Stratagem.Arithmetic
