import Stratagem.Proofs.Rewriting.Simplifier
import Stratagem.Proofs.Termination.Comparison
import Stratagem.Proofs.Termination.Connective

/-!
# The rules let terms fall

For most heads, what the rules make of a term is not heavier than the term, and it is lighter if it
is visited again. Comparisons of numbers and casts are the exceptions: comparisons may be visited
again completely, and a cast that is moved into a sum is lighter only once the casts in the sum have
been visited.
-/
namespace Stratagem

open Store (Extends)

variable {s after : Store} {config : SimplifierConfig} {Γ : Signature} {I : Assignment} {x y : ℝ}
  {t a b : TermId} {isInt : Bool} {relation : Relation} {δ : ℕ}

/-- A term is a comparison of numbers, or an equation of numbers. -/
def Store.IsComparison (s : Store) (t : TermId) : Prop :=
  ∃ (relation : Relation) (a b : TermId), s.view t = (relation.op, [a, b]) ∧ (s.sortOf a).isArith

/-- A term is a cast. -/
def Store.IsCast (s : Store) (t : TermId) : Prop := ∃ a, s.view t = (.toReal, [a])

namespace Store

/-- The weight of a comparison. -/
theorem weight_of_comparison (config : SimplifierConfig) (view : s.view t = (relation.op, [a, b]))
    (arith : (s.sortOf a).isArith) : s.weight config t = relation.weight := by
  rw [weight_of_view config view]
  cases relation <;> simp [Relation.op, Op.weigh, gauge, headSort, arith, Relation.weight]

/-- The arguments of a term whose head adds to the rank are of lesser rank. -/
theorem Ranked.lower {op : Op} {args : List TermId} (known : s.Ranked δ t)
    (view : s.view t = (op, args)) (lifts : op.lifts (s.gauge args) = 1) :
    ∃ δ', δ = δ' + 1 ∧ ∀ a ∈ args, s.Ranked δ' a := by
  obtain ⟨rfl, rfl⟩ := view_eq_iff.mp view
  obtain ⟨inside, rank⟩ := known
  have more : 1 ≤ s.rank t := by
    rw [rank_eq, lifts]
    exact Nat.le_add_right ..
  obtain ⟨δ', rfl⟩ : ∃ δ', δ = δ' + 1 := ⟨δ - 1, by omega⟩
  have each : ∀ a ∈ s.args t, s.rank a ≤ δ' := rank_le.mp (by omega)
  exact ⟨δ', rfl, fun a member => ⟨(lt_of_mem_args member).trans inside, each a member⟩⟩

/-- Comparisons of numbers add to the rank. -/
theorem lifts_relation (arith : (s.sortOf a).isArith) :
    relation.op.lifts (s.gauge [a, b]) = 1 := by
  cases relation <;> simp [Relation.op, Op.lifts, gauge, headSort, arith]

end Store

namespace Arithmetic

open Terms Rule

/-- A strict comparison is the negation of the converse one, which is lighter. -/
theorem reduceStrict_falls (arith : (s.sortOf a).isArith) (first : s.Ranked δ a)
    (second : s.Ranked δ b) :
    (do return .revisit 2 (← mkNot (← mkApp .le [a, b])) : Rule Outcome).Ensures config s
      fun o after => o.Falls after config (δ + 1) 5 := by
  refine ensures_bind (ensures_lift (mkRelation_bounded config .le arith first second))
    fun c middle _ built => ?_
  exact ensures_revisit (mkNot_bounded built) (by decide)

/-- The rule for the head of a term that is neither a comparison nor a cast lets the term fall. -/
theorem reduceHead_falls (sorted : s.WellSorted Γ t) (rank : s.rank t ≤ δ)
    (comparison : ¬s.IsComparison t) (cast : ¬s.IsCast t) :
    (reduceHead t).Ensures config s fun o after =>
      o.Falls after config δ (s.weight config t) := by
  have nowhere : Assignment := ⟨fun _ => True, fun _ => 0, fun _ => 0⟩
  have known := Store.Denotes.self sorted nowhere
  have self : (s.sortOf t).isArith → ∃ isInt, s.Number Γ nowhere isInt t (s.num nowhere t) :=
    fun arith =>
      let ⟨isInt, same⟩ := TermSort.exists_eq_number arith
      ⟨isInt, .self sorted same nowhere⟩
  have bounded {args : List TermId} {op : Op} (view : s.view t = (op, args)) :
      ∀ a ∈ args, s.Bounded config δ a (s.weight config a) := by
    obtain ⟨_, rfl⟩ := Store.view_eq_iff.mp view
    exact fun a => (Store.Bounded.self sorted.inside rank).of_mem_args
  unfold reduceHead
  refine ensures_peek_bind ?_
  split
  · next args view =>
    obtain ⟨isInt, number⟩ := self (known.of_view view).1.1
    exact reduceAdd_falls number rank view
  · next args view =>
    obtain ⟨isInt, number⟩ := self (known.of_view view).1.1
    exact reduceMul_falls number rank view
  · next a view =>
    rw [Store.weight_of_view config view]
    refine (reduceNeg_falls ((known.of_view view).2.1 a (by simp)) (bounded view a (by simp))).imp
      fun _ _ _ falls => falls.le ?_
    simp [Op.weigh]
  · next a b view =>
    rw [Store.weight_of_view config view]
    refine (reduceSub_falls (bounded view a (by simp)) (bounded view b (by simp))).imp
      fun _ _ _ falls => falls.le ?_
    simp [Op.weigh]
  · next view => exact (known.of_view view).1.elim
  · next view => exact (known.of_view view).1.elim
  · next view => exact (known.of_view view).1.elim
  · next view => exact (known.of_view view).1.elim
  · next base e view =>
    obtain ⟨isInt, number⟩ := self (known.of_view view).1.1
    exact reducePower_falls number rank view
  · next a b view => exact (comparison ⟨.le, a, b, view, (known.of_view view).1.2.1⟩).elim
  · next a b view => exact (comparison ⟨.ge, a, b, view, (known.of_view view).1.2.1⟩).elim
  · next a b view =>
    refine ensures_peek_bind ?_
    split
    · next arith => exact (comparison ⟨.eq, a, b, view, arith⟩).elim
    · exact ensures_pure trivial
  · next a b view =>
    obtain ⟨⟨_, arith, same⟩, _⟩ := known.of_view view
    obtain ⟨δ', rfl, lower⟩ := Store.Ranked.lower ⟨sorted.inside, rank⟩ view rfl
    rw [Store.weight_of_view config view]
    exact reduceStrict_falls (same ▸ arith) (lower b (by simp)) (lower a (by simp))
  · next a b view =>
    obtain ⟨⟨_, arith, same⟩, _⟩ := known.of_view view
    obtain ⟨δ', rfl, lower⟩ := Store.Ranked.lower ⟨sorted.inside, rank⟩ view rfl
    rw [Store.weight_of_view config view]
    exact reduceStrict_falls arith (lower a (by simp)) (lower b (by simp))
  · next view => exact (known.of_view view).1.elim
  · next a view => exact (cast ⟨a, view⟩).elim
  · next view => exact (known.of_view view).1.elim
  · next op a _ _ _ _ view =>
    split <;> first | exact (known.of_view view).1.elim | exact ensures_pure trivial
  · exact ensures_pure trivial

end Arithmetic

namespace Rewriting

open Rule Arithmetic

/-- The rules let a term fall, up to what those for numbers do with its head. -/
theorem reduce_falls_or {post : Outcome → Store → Prop} (sorted : s.WellSorted Γ t)
    (rank : s.rank t ≤ δ) (arithmetic : ∀ now, s.Extends now →
      (reduceHead t).Ensures config now fun o after =>
        o.Falls after config δ (s.weight config t) ∨ post o after) :
    (reduce t).Ensures config s fun o after =>
      o.Falls after config δ (s.weight config t) ∨ post o after := by
  refine reduceBy_ensures (fun _ _ => .inl trivial) _ fun family member now grown => ?_
  have rank := (grown.rank_eq sorted.inside).trans_le rank
  have weight := grown.weight_eq config sorted.inside
  simp only [List.mem_cons, List.not_mem_nil, or_false] at member
  obtain rfl | rfl | rfl := member
  · exact weight ▸ (Connective.reduce_falls (sorted.mono grown) rank).imp fun _ _ _ falls =>
      .inl falls
  · exact reduce_ensures (arithmetic now grown)
  · refine (BitVector.reduce_failed (sorted.mono grown)).imp fun o after _ failed => ?_
    subst failed
    exact .inl trivial

/-- The rules let a term fall that is neither a comparison nor a cast. -/
theorem reduce_falls (sorted : s.WellSorted Γ t) (rank : s.rank t ≤ δ)
    (comparison : ¬s.IsComparison t) (cast : ¬s.IsCast t) :
    (reduce t).Ensures config s fun o after =>
      o.Falls after config δ (s.weight config t) := by
  have fall : (reduce t).Ensures config s fun o after =>
      o.Falls after config δ (s.weight config t) ∨ False := by
    refine reduce_falls_or sorted rank fun now grown => ?_
    rw [← grown.weight_eq config sorted.inside]
    refine (reduceHead_falls (sorted.mono grown) ((grown.rank_eq sorted.inside).trans_le rank) ?_
      ?_).imp fun _ _ _ => .inl
    · rintro ⟨relation, a, b, view, arith⟩
      rw [grown.view_eq sorted.inside] at view
      have first := Store.lt_size_of_view sorted.inside view a (by simp)
      exact comparison ⟨relation, a, b, view, grown.sortOf_eq first ▸ arith⟩
    · rintro ⟨a, view⟩
      exact cast ⟨a, grown.view_eq sorted.inside ▸ view⟩
  exact fall.imp fun _ _ _ falls => falls.resolve_right id

/-- The rules let a comparison of numbers fall, or it is started again. -/
theorem reduce_comparison_settles (strict : ¬Γ.realCasts) (sorted : s.WellSorted Γ t)
    (view : s.view t = (relation.op, [a, b])) (sort : s.sortOf a = .number isInt)
    (rank : s.Ranked (δ + 1) t) :
    (reduce t).Ensures config s fun o after => o.Falls after config (δ + 1) relation.weight ∨
      Restarts o after config relation isInt δ (s.weight config a + s.weight config b) := by
  have arith : (s.sortOf a).isArith := sort ▸ TermSort.isArith_number isInt
  obtain ⟨_, same, lower⟩ := rank.lower view (Store.lifts_relation arith)
  obtain rfl := Nat.succ.inj same
  have nowhere : Assignment := ⟨fun _ => True, fun _ => 0, fun _ => 0⟩
  obtain ⟨fits, arguments, _⟩ := (Store.Denotes.self sorted nowhere).of_view view
  have same : s.sortOf b = s.sortOf a := by
    cases relation with
    | le | ge => exact fits.2.2
    | eq => exact fits.2
  rw [← Store.weight_of_comparison config view arith]
  refine reduce_falls_or sorted rank.2 fun now grown => ?_
  have first := lower a (by simp)
  have second := lower b (by simp)
  rw [← grown.weight_eq config first.1, ← grown.weight_eq config second.1,
    Store.weight_of_comparison config view arith]
  have compared : (reduceComparison t relation a b).Ensures config now _ :=
    reduceComparison_settles strict (.mono (.self (arguments a (by simp)) sort nowhere) grown)
      (.mono (.self (arguments b (by simp)) (same.trans sort) nowhere) grown)
      (first.mono grown) (second.mono grown)
  have view := (grown.view_eq sorted.inside).trans view
  unfold reduceHead
  refine ensures_peek_bind ?_
  rw [view]
  cases relation with
  | le | ge => exact compared
  | eq =>
    refine ensures_peek_bind ?_
    rw [if_pos]
    · exact compared
    · rwa [Store.isArith, grown.sortOf_eq first.1]

/-- The rules leave the cast of an integer as it is, make a literal of it, or move the cast into a
sum or a product. -/
theorem reduce_cast_settles (strict : ¬Γ.realCasts) (sorted : s.WellSorted Γ t)
    (view : s.view t = (.toReal, [a])) :
    (reduce t).Ensures config s fun o after =>
      o = .failed ∧ 2 ≤ s.weight config a ∨ (∃ r, o = .done r ∧ after.Bounded config δ r 1) ∨
        Pushes o after (s.op a) (s.args a) := by
  have nowhere : Assignment := ⟨fun _ => True, fun _ => 0, fun _ => 0⟩
  have applies : (reduceHead t).Ensures config s fun o after =>
      o = .failed ∧ 2 ≤ s.weight config a ∨ (∃ r, o = .done r ∧ after.Bounded config δ r 1) ∨
        Pushes o after (s.op a) (s.args a) := by
    obtain ⟨⟨_, int | ⟨casts, _⟩⟩, arguments, _⟩ := (Store.Denotes.self sorted nowhere).of_view view
    · unfold reduceHead
      refine ensures_peek_bind ?_
      rw [view]
      have int : s.sortOf a = .number true := int
      exact reduceToReal_settles (.self (arguments a (by simp)) int nowhere)
    · exact absurd casts strict
  refine ensures_bind (connective_silent view rfl) ?_
  rintro _ s _ ⟨rfl, rfl⟩
  refine ensures_bind (Arithmetic.reduce_ensures applies) fun o after grown known => ?_
  split
  · next failed =>
    refine ensures_bind (BitVector.reduce_failed (sorted.mono grown)) ?_
    rintro _ last _ rfl
    refine ensures_pure ?_
    obtain both | ⟨r, rfl, _⟩ | ⟨_, r, terms, rfl, _⟩ := known
    · exact .inl ⟨rfl, both.2⟩
    · cases failed
    · cases failed
  · exact ensures_pure known

end Rewriting

end Stratagem
