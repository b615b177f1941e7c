import Stratagem.Proofs.Steady.Comparison
import Stratagem.Proofs.Termination.Power

/-!
# Comparisons settle

A comparison of numbers is balanced once: what comes of that is a truth value, a comparison, or two
comparisons that are together lighter than an equation. Before that a power may be reduced against
zero, and casts may be dropped from both sides. The comparison that comes of this is visited again
completely, but either its sides are lighter, or they are integers and were reals.
-/
namespace Stratagem

open Store (Extends)

variable {s after : Store} {config : SimplifierConfig} {Γ : Signature} {I : Assignment} {x y : ℝ}
  {t a b : TermId} {args : List TermId} {isInt : Bool} {relation : Relation} {δ n : ℕ}

/-- The weight of a comparison of numbers. -/
def Relation.weight : Relation → ℕ
  | le | ge => 2
  | eq => 20

/-- The flipped relation weighs the same. -/
@[simp] theorem Relation.weight_flip (relation : Relation) :
    relation.flip.weight = relation.weight := by
  cases relation <;> rfl

/-- A relation weighs something. -/
theorem Relation.one_le_weight (relation : Relation) : 1 ≤ relation.weight := by
  cases relation <;> decide

namespace Terms

/-- A sum of terms of some rank. -/
theorem mkAdd_ranked (known : ∀ a ∈ args, s.Ranked δ a) :
    (mkAdd args).Ensures s fun t after => after.Ranked δ t :=
  (mkAdd_bounded (Store.Bounded.self_all {} known)).imp fun _ _ _ built => built.ranked

/-- A product of terms of some rank. -/
theorem mkMul_ranked (known : ∀ a ∈ args, s.Ranked δ a) :
    (mkMul args).Ensures s fun t after => after.Ranked δ t :=
  (mkMul_bounded (Store.Bounded.self_all {} known)).imp fun _ _ _ built => built.ranked

end Terms

/-- Terms of some rank stay of that rank when the store grows. -/
theorem Store.Ranked.mono_all (known : ∀ a ∈ args, s.Ranked δ a) (grown : s.Extends after) :
    ∀ a ∈ args, after.Ranked δ a :=
  fun a member => (known a member).mono grown

namespace Arithmetic

open Terms Rule

/-- A comparison of numbers of some rank. -/
theorem mkRelation_bounded (config : SimplifierConfig) (relation : Relation)
    (arith : (s.sortOf a).isArith) (first : s.Ranked δ a) (second : s.Ranked δ b) :
    (mkApp relation.op [a, b]).Ensures s fun t after =>
      after.Bounded config (δ + 1) t relation.weight := by
  have known : ∀ u ∈ [a, b], s.Ranked δ u := by simp [first, second]
  refine mkApp_bounded relation.op (Store.Bounded.self_all config known) ?_ ?_
  · cases relation <;> simp [Relation.op, Op.lifts, Store.gauge, Store.headSort, arith] <;> omega
  · cases relation <;>
      simp [Relation.op, Op.weigh, Store.gauge, Store.headSort, arith, Relation.weight]

/-- A known answer. -/
theorem decided_falls (δ : ℕ) (answer : Bool) :
    (decided answer).Ensures config s fun o after => o.Falls after config δ 1 :=
  ensures_modify_bind (ensures_pure (bounded_ofBool s answer))

/-- A comparison as a result; two comparisons are lighter than an equation. -/
theorem finishComparison_falls (arith : (s.sortOf a).isArith) (first : s.Ranked δ a)
    (second : s.Ranked δ b) : (finishComparison t relation a b).Ensures config s fun o after =>
      o.Falls after config (δ + 1) relation.weight := by
  have ordered (relation : Relation) (now : Store) (grown : s.Extends now) :
      (mkApp relation.op [a, b]).Ensures now fun t after =>
        after.Bounded config (δ + 1) t relation.weight :=
    mkRelation_bounded config relation (by rwa [grown.sortOf_eq first.1]) (first.mono grown)
      (second.mono grown)
  unfold finishComparison
  refine ensures_bind (ensures_lift (ordered relation s (.refl s))) fun r middle grown built => ?_
  refine ensures_read_bind ?_
  split
  · next split =>
    obtain ⟨rfl, _⟩ := split
    refine ensures_bind (ensures_lift (ordered .le middle grown)) fun le later more below => ?_
    refine ensures_bind (ensures_lift (ordered .ge later (grown.trans more)))
      fun ge last most above => ?_
    exact ensures_revisit (mkAnd_bounded (.cons (below.mono most) (.cons above .nil))) (by decide)
  · split
    · exact ensures_pure trivial
    · exact ensures_pure built

/-- A bound on a power product. -/
theorem reduceBound_falls {m : Monomial} (bound : ℚ) (some : m.product ≠ [])
    (factors : s.Numbers Γ isInt m.product) (ranked : ∀ f ∈ m.product, s.Ranked δ f) :
    (reduceBound t relation m bound isInt).Ensures config s fun o after =>
      o.Falls after config (δ + 1) relation.weight := by
  obtain ⟨effective, same, weight⟩ : ∃ effective : Relation,
      (if m.coeff < 0 then relation.flip else relation) = effective ∧
        effective.weight = relation.weight := by
    refine ⟨_, rfl, ?_⟩
    split
    · exact relation.weight_flip
    · rfl
  unfold reduceBound
  rw [← weight]
  simp only [same]
  have nowhere : Assignment := ⟨fun _ => True, fun _ => 0, fun _ => 0⟩
  refine ensures_bind (ensures_lift ((mkMul_number some (factors.forall₂ nowhere)).and
    (mkMul_ranked ranked))) fun x after grown product => ?_
  obtain ⟨number, rank⟩ := product
  split
  · exact (decided_falls _ false).imp fun _ _ _ falls => falls.le effective.one_le_weight
  · refine ensures_bind (ensures_lift (mkNumeral_bounded config δ _ isInt))
      fun c last more literal => ?_
    refine finishComparison_falls ?_ (rank.mono more) literal.ranked
    rw [more.sortOf_eq rank.1, number.sort_eq]
    exact TermSort.isArith_number isInt

/-- Sums of literals and monomials are of the rank of these. -/
theorem mkSum_ranked {constant : Option TermId} {monomials : List Monomial}
    (known : ∀ c ∈ constant, s.Ranked δ c)
    (fits : ∀ m ∈ monomials, s.Numbers Γ isInt m.product ∧ ∀ f ∈ m.product, s.Ranked δ f) :
    (mkSum constant monomials isInt).Ensures config s fun t after => after.Ranked δ t := by
  unfold mkSum
  refine ensures_bind (mkMonomials_bounded fits) fun terms middle grown built => ?_
  have each : ∀ a ∈ constant.toList ++ terms, middle.Ranked δ a := by
    refine List.forall_mem_append.mpr ⟨fun c member => ?_, Store.Bounded.ranked_all built⟩
    exact (known c (Option.mem_toList.mp member)).mono grown
  split
  · exact ensures_lift ((mkNumeral_bounded {} δ 0 isInt).imp fun _ _ _ built => built.ranked)
  · exact ensures_lift (mkAdd_ranked each)

/-- The comparison of a balance. -/
theorem mkBalance_falls {b : Balance} {p : Prop} (known : (I.semantics Γ).Compares s isInt b p)
    (ranked : b.All (s.Ranked δ)) : (mkBalance t b isInt).Ensures config s fun o after =>
      o.Falls after config (δ + 1) b.relation.weight := by
  have left : ∀ m ∈ b.left.toList, s.Numbers Γ isInt m.product ∧ ∀ f ∈ m.product, s.Ranked δ f :=
    fun m member => ⟨(known.left m member).factors, ranked.left m member⟩
  have absent : ∀ c ∈ (none : Option TermId),
      (I.semantics Γ).Number s isInt c 0 ∧ s.Ranked δ c := by simp
  unfold mkBalance
  refine ensures_bind ((Semantics.mkSum_means (fun c found => (absent c found).1) (fun _ => rfl)
    known.left).and (mkSum_ranked (fun c found => (absent c found).2) left))
    fun l middle grown sum => ?_
  obtain ⟨number, rank⟩ := sum
  have constant : (if b.bound ≠ 0 ∨ b.right.isEmpty = true then some <$> mkNumeral b.bound isInt
      else pure none : Rule (Option TermId)).Ensures config middle fun constant after =>
      ∀ c ∈ constant, after.Ranked δ c := by
    split
    · refine ensures_bind (ensures_lift (mkNumeral_bounded {} δ b.bound isInt))
        fun c _ _ literal => ensures_pure ?_
      rintro _ ⟨⟩
      exact literal.ranked
    · exact ensures_pure nofun
  refine ensures_ite_bind constant fun constant after more literal => ?_
  have right : ∀ m ∈ b.right.toList, after.Numbers Γ isInt m.product ∧
      ∀ f ∈ m.product, after.Ranked δ f := fun m member =>
    ⟨((known.right m member).mono (grown.trans more)).factors,
      Store.Ranked.mono_all (ranked.right m member) (grown.trans more)⟩
  have finish {r : TermId} {now : Store} (last : after.Extends now) (side : now.Ranked δ r) :
      (finishComparison t b.relation l r).Ensures config now fun o after =>
        o.Falls after config (δ + 1) b.relation.weight := by
    have whole := more.trans last
    refine finishComparison_falls ?_ (rank.mono whole) side
    rw [whole.sortOf_eq rank.1, number.sort_eq]
    exact TermSort.isArith_number isInt
  dsimp only
  split
  · exact ensures_pure_bind (finish (.refl _) (literal _ rfl))
  · exact ensures_bind (mkSum_ranked literal right) fun r last most side => finish most side

/-- Balancing a comparison does not change its weight. -/
theorem weight_balance (s : Store) (lhsOnly : Bool) (relation : Relation) (a b : TermId) :
    (balance s lhsOnly relation a b).relation.weight = relation.weight := by
  unfold balance
  generalize cancel (s.linearForm a).monomials (s.linearForm b).monomials = sides
  obtain ⟨left, right⟩ := sides
  cases lhsOnly <;> dsimp only <;> split_ifs <;> simp

/-- A comparison of sums. -/
theorem reduceBalance_falls {b : Balance} {p : Prop} (known : (I.semantics Γ).Balances s isInt b p)
    (ranked : b.All (s.Ranked δ)) : (reduceBalance t b isInt).Ensures config s fun o after =>
      o.Falls after config (δ + 1) b.relation.weight := by
  have decided (answer : Bool) {now : Store} : (decided answer).Ensures config now
      fun o after => o.Falls after config (δ + 1) b.relation.weight :=
    (decided_falls _ answer).imp fun _ _ _ falls => falls.le b.relation.one_le_weight
  unfold reduceBalance
  split
  · exact decided _
  · next m alone empty =>
    have member : m ∈ b.left.toList := by rw [alone]; exact List.mem_singleton_self m
    have fits := known.left m member
    exact reduceBound_falls _ fits.some fits.factors (ranked.left m member)
  · refine ensures_read_bind ?_
    dsimp only
    split
    · exact mkBalance_falls known.toCompares ranked
    · next g divisor =>
      split at divisor
      · next asked =>
        obtain ⟨_, rfl⟩ := Bool.and_eq_true_iff.mp asked
        have divided := Semantics.divide?_means known.toCompares divisor
        split
        · exact decided false
        · next result present =>
          rw [present] at divided
          have same : result.relation = b.relation := by
            unfold Balance.divide? at present
            dsimp only at present
            split at present
            · cases present
            · obtain rfl := Option.some.inj present
              rfl
          rw [← same]
          exact ensures_modify_bind (mkBalance_falls divided (ranked.divide? present))
      · cases divisor

section ZeroPowers

/-- A reduced factor is lighter than the factor. -/
theorem reduceZeroFactor?_bounded {f : TermId} (number : s.Number Γ I isInt f x)
    (ranked : s.Ranked δ f) :
    (reduceZeroFactor? relation f).Ensures config s fun reduced after =>
      ∀ u ∈ reduced, ∃ m < s.weight config f, after.Bounded config δ u m := by
  unfold reduceZeroFactor?
  refine ensures_peek_bind ?_
  split
  · next base e view =>
    obtain ⟨k, positive, exponent, _, _⟩ := of_power number view
    have weight : s.weight config f = config.powerWeight (s.weight config base) k := by
      rw [Store.weight_of_view config view]
      simp [Op.weigh, Store.gauge, exponent]
    have known : s.Bounded config δ base (s.weight config base) :=
      (Store.Bounded.self ranked.1 ranked.2).of_mem_args (by
        rw [(Store.view_eq_iff.mp view).2]
        simp)
    have basis : ∀ u ∈ some base, ∃ m < s.weight config f, s.Bounded config δ u m := by
      rintro _ ⟨⟩
      exact ⟨_, weight ▸ lt_powerWeight config _ positive, known⟩
    refine ensures_peek_bind ?_
    rw [exponent]
    dsimp only
    split
    · split
      · exact ensures_pure basis
      split
      · next big =>
        split
        · exact ensures_pure basis
        next even =>
        have big : 2 < k := by exact_mod_cast Rat.num_natCast k ▸ big
        have even : 4 ≤ k := by
          rw [Rat.num_natCast k] at even
          omega
        refine ensures_bind (ensures_lift (mkInt_bounded config δ 2)) fun two middle grown two => ?_
        refine ensures_bind (ensures_lift (mkPower_bounded (known.mono grown) two))
          fun square after _ built => ensures_pure ?_
        rintro _ ⟨⟩
        exact ⟨_, weight ▸ powerWeight_two_lt config (s.one_le_weight config base) even, built⟩
      · exact ensures_pure (by simp)
    · exact ensures_pure (by simp)
  · exact ensures_pure (by simp)

/-- A reduced factor in the place of a factor, if there is one, is lighter. -/
def Lightens (config : SimplifierConfig) (δ : ℕ) (w : TermId → ℕ) (s : Store) (f : TermId)
    (reduced : Option TermId) : Prop :=
  s.Ranked δ f ∧ s.weight config f = w f ∧ ∀ u ∈ reduced, ∃ m < w f, s.Bounded config δ u m

/-- Reduced factors in the place of the factors: their product is not heavier, and lighter if there
is one. -/
theorem zipWith_bounded {w : TermId → ℕ} {factors : List TermId} {reduced : List (Option TermId)}
    (known : List.Forall₂ (Lightens config δ w s) factors reduced) :
    ∃ ns, List.Forall₂ (s.Bounded config δ) (factors.zipWith (fun f r => r.getD f) reduced) ns ∧
      1 ≤ (factors.map w).prod ∧ ns.prod ≤ (factors.map w).prod ∧
      (reduced.all Option.isNone = false → ns.prod < (factors.map w).prod) := by
  induction known with
  | nil => exact ⟨[], .nil, le_rfl, le_rfl, nofun⟩
  | @cons f r factors reduced first _ rest =>
    obtain ⟨ranked, weight, lighter⟩ := first
    obtain ⟨ns, bounded, some, atMost, less⟩ := rest
    have positive : 1 ≤ w f := weight ▸ s.one_le_weight config f
    simp only [List.zipWith_cons_cons, List.map_cons, List.prod_cons, List.all_cons]
    cases r with
    | none =>
      refine ⟨w f :: ns, .cons ⟨ranked.1, ranked.2, weight.le⟩ bounded,
        Nat.mul_le_mul positive some, Nat.mul_le_mul_left _ atMost, fun present => ?_⟩
      exact Nat.mul_lt_mul_of_pos_left (less (by simpa using present)) positive
    | some u =>
      obtain ⟨m, light, built⟩ := lighter u rfl
      have strictly : m * ns.prod < w f * (factors.map w).prod :=
        calc m * ns.prod ≤ m * (factors.map w).prod := Nat.mul_le_mul_left m atMost
          _ < w f * (factors.map w).prod := Nat.mul_lt_mul_of_pos_right light some
      exact ⟨m :: ns, .cons built bounded, Nat.mul_le_mul positive some, strictly.le,
        fun _ => strictly⟩

/-- The product of the factors with reduced ones among them is lighter. -/
theorem mkMul_zipWith_bounded {w : TermId → ℕ} {p : TermId} {factors : List TermId}
    {reduced : List (Option TermId)} (found : zeroFactors? s p = some factors)
    (same : ∀ f ∈ factors, w f = s.weight config f)
    (known : List.Forall₂ (Lightens config δ w after) factors reduced)
    (present : reduced.all Option.isNone = false) :
    (mkMul (factors.zipWith (fun f r => r.getD f) reduced)).Ensures after
      fun u last => ∃ m < s.weight config p, last.Bounded config δ u m := by
  have weights : factors.map w = factors.map (s.weight config) := List.map_congr_left same
  unfold zeroFactors? at found
  split at found
  · next view =>
    obtain rfl := Option.some.inj found
    obtain ⟨ns, bounded, _, _, less⟩ := zipWith_bounded known
    refine (mkMul_bounded bounded).imp fun _ _ _ built => ⟨_, ?_, built⟩
    rw [Store.weight_of_view config view]
    have less := weights ▸ less present
    simp only [Op.weigh]
    omega
  · obtain rfl := Option.some.inj found
    obtain ⟨reduced, rfl⟩ := List.length_eq_one_iff.mp known.length_eq.symm
    cases reduced with
    | none => simp at present
    | some u =>
      obtain ⟨⟨_, _, lighter⟩, _⟩ := List.forall₂_cons.mp known
      obtain ⟨m, light, built⟩ := lighter u rfl
      exact Terms.ensures_pure ⟨m, same p (by simp) ▸ light, built⟩
  · cases found

/-- A comparison is visited again in the place of one whose sides have a sort and weigh together as
much as a bound. The sides of the new one are lighter, or they are integers and were reals. -/
def Restarts (o : Outcome) (s : Store) (config : SimplifierConfig) (relation : Relation)
    (isInt : Bool) (δ n : ℕ) : Prop :=
  ∃ r x y, o = .revisitAll r ∧ r < s.size ∧ s.view r = (relation.op, [x, y]) ∧ s.Ranked δ x ∧
    s.Ranked δ y ∧ ((s.sortOf x = .number isInt ∨ s.sortOf y = .number isInt) ∧
      s.weight config x + s.weight config y < n ∨ isInt = false ∧ s.sortOf x = .int)

/-- A comparison of two terms that is built. -/
theorem mkComparison_view (first : a < s.size) (second : b < s.size) :
    (mkComparison relation a b).Ensures config s fun t after =>
      t < after.size ∧ after.view t = (relation.op, [a, b]) :=
  ensures_lift ((mkApp_node (by simp [first, second])).imp fun t after _ node =>
    ⟨node.1, by rw [Store.view, node.2]⟩)

/-- A product with reduced powers is compared with zero. -/
theorem reduceZeroPower?_restarts (left : s.Number Γ I isInt a x) (right : s.Number Γ I isInt b y)
    (first : s.Ranked δ a) (second : s.Ranked δ b) :
    (reduceZeroPower? relation a b).Ensures config s fun found after => ∀ o ∈ found,
      Restarts o after config relation isInt δ (s.weight config a + s.weight config b) := by
  have absent : (pure none : Rule (Option Outcome)).Ensures config s fun found after =>
      ∀ o ∈ found, Restarts o after config relation isInt δ
        (s.weight config a + s.weight config b) := ensures_pure nofun
  unfold reduceZeroPower?
  refine ensures_peek_bind (ensures_peek_bind ?_)
  split
  · exact absent
  -- One side is zero; the other one is the side to reduce.
  obtain ⟨z, p, side, number, ranked, weight⟩ : ∃ z p, (if s.isZero a then b else a) = p ∧
      s.Number Γ I isInt p z ∧ s.Ranked δ p ∧
      s.weight config p + 1 ≤ s.weight config a + s.weight config b := by
    have positive := s.one_le_weight config
    split
    · exact ⟨y, b, rfl, right, second, by have := positive a; omega⟩
    · exact ⟨x, a, rfl, left, first, by have := positive b; omega⟩
  rw [side]
  refine ensures_peek_bind ?_
  split
  · exact absent
  next factors found =>
  obtain ⟨numbers, _, _⟩ := Semantics.zeroFactors?_means (Assignment.denotes_iff.mpr number) found
  have numbers : s.Numbers Γ isInt factors := numbers
  have ranks : ∀ f ∈ factors, s.Ranked δ f := by
    unfold zeroFactors? at found
    split at found
    · next view =>
      obtain rfl := Option.some.inj found
      exact (Store.view_eq_iff.mp view).2 ▸ ranked.below
    · obtain rfl := Option.some.inj found
      exact List.forall_mem_singleton.mpr ranked
    · cases found
  refine ensures_peek_bind ?_
  rw [number.isInt_eq]
  have each : ∀ f ∈ factors, ∀ now, s.Extends now →
      (reduceZeroFactor? relation f).Ensures config now
        fun r after => Lightens config δ (s.weight config) after f r := by
    intro f member now grown
    obtain ⟨sorted, same⟩ := numbers.mono grown f member
    have rank := (ranks f member).mono grown
    have weight := grown.weight_eq config (ranks f member).1
    refine (reduceZeroFactor?_bounded (.self sorted same I) rank).imp
      fun r after more lighter => ⟨rank.mono more, ?_, ?_⟩
    · rw [more.weight_eq config rank.1, weight]
    · rwa [weight] at lighter
  have lasting : ∀ (f : TermId) (r : Option TermId) (before after : Store), before.Extends after →
      Lightens config δ (s.weight config) before f r →
      Lightens config δ (s.weight config) after f r :=
    fun f r before after more ⟨rank, weight, lighter⟩ =>
      ⟨rank.mono more, (more.weight_eq config rank.1).trans weight, fun u found =>
        (lighter u found).imp fun m both => ⟨both.1, both.2.mono more⟩⟩
  refine ensures_bind (ensures_mapM lasting factors each) fun reduced middle _ known => ?_
  split
  · exact ensures_pure nofun
  next present =>
  refine ensures_bind (ensures_lift (mkMul_zipWith_bounded found (fun _ _ => rfl) known
    (by simpa using present))) fun u middle _ product => ?_
  obtain ⟨m, light, built⟩ := product
  refine ensures_bind (ensures_lift ((mkNumeral_number (Γ := Γ) (I := I)
    fun _ => Rational.isIntegral_zero).and (mkNumeral_bounded config δ 0 isInt)))
    fun nought last grown nothing => ?_
  obtain ⟨zero, none⟩ := nothing
  have built := built.mono grown
  split
  · refine ensures_bind (mkComparison_view none.inside built.inside) fun r after more view =>
      ensures_pure ?_
    rintro _ ⟨⟩
    refine ⟨r, nought, u, rfl, view.1, view.2, none.ranked.mono more, built.ranked.mono more,
      .inl ⟨.inl ((more.sortOf_eq none.inside).trans zero.sort_eq), ?_⟩⟩
    have := (none.mono more).weight_le
    have := (built.mono more).weight_le
    omega
  · refine ensures_bind (mkComparison_view built.inside none.inside) fun r after more view =>
      ensures_pure ?_
    rintro _ ⟨⟩
    refine ⟨r, u, nought, rfl, view.1, view.2, built.ranked.mono more, none.ranked.mono more,
      .inl ⟨.inr ((more.sortOf_eq none.inside).trans zero.sort_eq), ?_⟩⟩
    have := (none.mono more).weight_le
    have := (built.mono more).weight_le
    omega

end ZeroPowers

section Casts

/-- The integer factors that casts and literals stand for are of no greater rank. -/
theorem stripFactors_ranked : ∀ (factors ints : List TermId) (found : Bool) {s : Store},
    (∀ f ∈ factors, s.Ranked δ f) → (∀ u ∈ ints, s.Ranked δ u) →
    (stripFactors factors ints found).Ensures config s fun answer after =>
      ∀ p ∈ answer, ∀ u ∈ p.1, after.Ranked δ u
  | [], ints, found, s, _, known => ensures_pure (by simpa using known)
  | f :: rest, ints, found, s, ranked, known => by
    obtain ⟨here, others⟩ := List.forall_mem_cons.mp ranked
    unfold stripFactors
    refine ensures_peek_bind ?_
    split
    · split
      · refine ensures_bind (ensures_lift (mkInt_bounded {} δ _)) fun n after grown literal => ?_
        exact stripFactors_ranked rest _ found (Store.Ranked.mono_all others grown)
          (List.forall_mem_cons.mpr ⟨literal.2.ranked, Store.Ranked.mono_all known grown⟩)
      · exact ensures_pure nofun
    refine ensures_peek_bind ?_
    split
    · next u view =>
      have cast : s.Ranked δ u := here.below f u (by rw [(Store.view_eq_iff.mp view).2]; simp)
      exact stripFactors_ranked rest _ true others (List.forall_mem_cons.mpr ⟨cast, known⟩)
    · exact ensures_pure nofun

/-- The factors of a product are of no greater rank. -/
theorem productFactors_ranked (ranked : s.Ranked δ t) :
    ∀ f ∈ productFactors s t, s.Ranked δ f := by
  unfold productFactors
  split
  · next view => exact (Store.view_eq_iff.mp view).2 ▸ ranked.below
  · exact List.forall_mem_singleton.mpr ranked

/-- The integer summands that real summands stand for are of no greater rank. -/
theorem stripSummands_ranked : ∀ (terms ints : List TermId) (found : Bool) {s : Store},
    (∀ a ∈ terms, s.Ranked δ a) → (∀ u ∈ ints, s.Ranked δ u) →
    (stripSummands terms ints found).Ensures config s fun answer after =>
      ∀ p ∈ answer, ∀ u ∈ p.1, after.Ranked δ u
  | [], ints, found, s, _, known => ensures_pure (by simpa using known)
  | t :: rest, ints, found, s, ranked, known => by
    obtain ⟨here, others⟩ := List.forall_mem_cons.mp ranked
    unfold stripSummands
    refine ensures_peek_bind ?_
    refine ensures_bind (stripFactors_ranked _ [] found (productFactors_ranked here) (by simp))
      fun answer middle grown product => ?_
    split
    · refine ensures_bind (ensures_lift (mkMul_ranked (product _ rfl))) fun n after more built => ?_
      have grown := grown.trans more
      exact stripSummands_ranked rest _ _ (Store.Ranked.mono_all others grown)
        (List.forall_mem_cons.mpr ⟨built, Store.Ranked.mono_all known grown⟩)
    · exact ensures_pure (by simp)

/-- The integer term that a real term stands for is of no greater rank. -/
theorem stripToReal?_ranked (ranked : s.Ranked δ t) :
    (stripToReal? t).Ensures config s fun answer after => ∀ p ∈ answer, after.Ranked δ p.1 := by
  refine ensures_peek_bind ?_
  split
  · exact ensures_pure nofun
  refine ensures_peek_bind ?_
  have summands := Store.flattenTo_all Store.Ranked.below .add (t + 1) ranked
  refine ensures_bind (stripSummands_ranked _ [] false summands nofun)
    fun answer middle _ known => ?_
  split
  · refine ensures_bind (ensures_lift (mkAdd_ranked (known _ rfl))) fun sum after _ built => ?_
    exact ensures_pure fun p same => Option.some.inj same ▸ built
  · exact ensures_pure nofun

/-- The integer terms that both sides of a comparison stand for are of no greater rank. -/
theorem stripSides?_ranked (first : s.Ranked δ a) (second : s.Ranked δ b) :
    (stripSides? a b).Ensures config s fun answer after =>
      ∀ p ∈ answer, after.Ranked δ p.1 ∧ after.Ranked δ p.2 := by
  refine ensures_read_bind ?_
  split
  · exact ensures_pure nofun
  refine ensures_bind (stripToReal?_ranked first) fun left middle grown known => ?_
  refine ensures_bind (stripToReal?_ranked (second.mono grown)) fun right after more other => ?_
  split
  · refine ensures_pure fun p same => ?_
    split at same
    · obtain rfl := Option.some.inj same
      exact ⟨(known _ rfl).mono more, other _ rfl⟩
    · cases same
  · exact ensures_pure nofun

end Casts

/-- A comparison of numbers becomes something lighter, or a comparison is visited again whose sides
are lighter or are integers and were reals. -/
theorem reduceComparison_settles (strict : ¬Γ.realCasts) (left : s.Number Γ I isInt a x)
    (right : s.Number Γ I isInt b y) (first : s.Ranked δ a) (second : s.Ranked δ b) :
    (reduceComparison t relation a b).Ensures config s fun o after =>
      o.Falls after config (δ + 1) relation.weight ∨
      Restarts o after config relation isInt δ (s.weight config a + s.weight config b) := by
  unfold reduceComparison
  refine ensures_numeralValue?_bind left.sorted ?_
  refine ensures_numeralValue?_bind right.sorted ?_
  split
  · next v w literal literal' =>
    obtain ⟨r, _, rfl⟩ := Option.map_eq_some_iff.mp literal
    obtain ⟨q, _, rfl⟩ := Option.map_eq_some_iff.mp literal'
    refine ensures_evaluate?_bind ((decided_falls (δ + 1) _).imp fun _ _ _ falls => .inl ?_)
    exact falls.le relation.one_le_weight
  · refine ensures_bind (reduceZeroPower?_restarts left right first second)
      fun found middle grown result => ?_
    split
    · next o => exact ensures_pure (.inr (result o rfl))
    have left := left.mono grown
    have right := right.mono grown
    have first := first.mono grown
    have second := second.mono grown
    refine ensures_bind ((Semantics.stripSides?_means (M := I.semantics Γ) strict
      (Assignment.denotes_iff.mpr left) (Assignment.denotes_iff.mpr right)).and
      (stripSides?_ranked first second)) fun sides after more result => ?_
    obtain ⟨known, ranked⟩ := result
    split
    · next u w =>
      obtain ⟨real, number, _⟩ := known u w rfl
      obtain ⟨one, other⟩ := ranked (u, w) rfl
      refine ensures_bind (mkComparison_view one.1 other.1) fun r last most view => ?_
      refine ensures_pure (.inr ⟨r, u, w, rfl, view.1, view.2, one.mono most, other.mono most,
        .inr ⟨real, (most.sortOf_eq one.1).trans number.sort_eq⟩⟩)
    · have left := left.mono more
      have right := right.mono more
      refine ensures_peek_bind (ensures_read_bind (ensures_peek_bind ?_))
      have same : (after.isInt a && after.isInt b) = isInt := by
        rw [left.isInt_eq, right.isInt_eq, Bool.and_self]
      rw [same]
      refine (reduceBalance_falls (Semantics.balance_means _ (fun _ => trivial)
        (Assignment.denotes_iff.mpr left) (Assignment.denotes_iff.mpr right))
        (balance_all Store.Ranked.below _ relation (first.mono more) (second.mono more))).imp
        fun o _ _ falls => .inl ?_
      rwa [weight_balance] at falls

end Arithmetic

end Stratagem
