import Stratagem.Proofs.Rewriting.Comparison
import Stratagem.Proofs.Rewriting.Connective
import Stratagem.Proofs.Rewriting.Power
import Stratagem.Rewriting.Simplifier

/-!
# The simplifier keeps the meaning of terms

Every rule keeps the sort and the value of a well-sorted term, so does the simplifier: what it
remembers and what it returns denotes the same under every assignment. Results have no casts of
reals to reals, which is what the rule that drops casts from comparisons relies on.
-/
namespace Stratagem

open Terms

variable {s after : Store} {Γ : Signature} {I : Assignment} {t a b : TermId} {sort : TermSort}
  {v : Value} {config : SimplifierConfig}

namespace Arithmetic

open Rule

/-- A well-sorted term with two arguments of one sort of numbers. -/
theorem sides_numbers (sorted : ∀ u ∈ [a, b], s.WellSorted Γ u) (arith : (s.sortOf a).isArith)
    (same : s.sortOf b = s.sortOf a) (I : Assignment) :
    ∃ isInt, s.Number Γ I isInt a (s.num I a) ∧ s.Number Γ I isInt b (s.num I b) := by
  obtain ⟨isInt, sort⟩ := TermSort.exists_eq_number arith
  have first := Store.Number.self (sorted a (by simp)) sort I
  have second := Store.Number.self (sorted b (by simp)) (same.trans sort) I
  exact ⟨isInt, first, second⟩

/-- A strict comparison is the negation of the converse one. -/
theorem reduceStrict_denotes {isInt : Bool} {x y : ℝ} (left : s.Number Γ I isInt a x)
    (right : s.Number Γ I isInt b y) :
    (do return .revisit 2 (← mkNot (← mkApp .le [a, b])) : Rule Outcome).Ensures config s
      fun o after => o.Denotes after Γ I .bool (.truth (y < x)) := by
  refine ensures_bind (ensures_lift (mkLe_formula left right)) fun c middle grown formula => ?_
  refine ensures_build (fun _ => rfl) ((mkNot_formula formula).imp fun _ _ _ negated => ?_)
  exact negated.congr not_le

/-- The rule for the head of a term keeps its meaning. -/
theorem reduceHead_denotes (strict : ¬Γ.realCasts) (known : s.Denotes Γ I t sort v) :
    (reduceHead t).Ensures config s fun o after => o.Denotes after Γ I sort v := by
  unfold reduceHead
  refine ensures_peek_bind ?_
  have self : ∀ isInt, sort = .number isInt → v = .number v.num ∧ s.Number Γ I isInt t v.num := by
    rintro isInt rfl
    have value : v = .number v.num := Value.eq_number (TermSort.isArith_number isInt) known.hasSort
    exact ⟨value, value ▸ known⟩
  split
  · next args view =>
    obtain ⟨⟨arith, _⟩, _⟩ := known.of_view view
    obtain ⟨isInt, rfl⟩ := TermSort.exists_eq_number arith
    obtain ⟨value, number⟩ := self isInt rfl
    rw [value]
    exact reduceAdd_denotes number view
  · next args view =>
    obtain ⟨⟨arith, _⟩, _⟩ := known.of_view view
    obtain ⟨isInt, rfl⟩ := TermSort.exists_eq_number arith
    obtain ⟨value, number⟩ := self isInt rfl
    rw [value]
    exact reduceMul_denotes number view
  · next a view =>
    obtain ⟨⟨arith, same⟩, sorted, rfl⟩ := known.of_view view
    obtain ⟨isInt, rfl⟩ := TermSort.exists_eq_number arith
    obtain ⟨_, number⟩ := self isInt rfl
    exact reduceNeg_denotes number.isInt_eq (.self (sorted a (by simp)) same I)
  · next a b view =>
    obtain ⟨⟨arith, first, second⟩, sorted, rfl⟩ := known.of_view view
    obtain ⟨isInt, rfl⟩ := TermSort.exists_eq_number arith
    obtain ⟨_, number⟩ := self isInt rfl
    exact reduceSub_denotes number.isInt_eq (.self (sorted a (by simp)) first I)
      (.self (sorted b (by simp)) second I)
  · next view => exact (known.of_view view).1.elim
  · next view => exact (known.of_view view).1.elim
  · next view => exact (known.of_view view).1.elim
  · next view => exact (known.of_view view).1.elim
  · next base e view =>
    obtain ⟨⟨arith, _⟩, _⟩ := known.of_view view
    obtain ⟨isInt, rfl⟩ := TermSort.exists_eq_number arith
    obtain ⟨value, number⟩ := self isInt rfl
    rw [value]
    exact reducePower_denotes number view
  · next a b view =>
    obtain ⟨⟨rfl, arith, same⟩, sorted, rfl⟩ := known.of_view view
    obtain ⟨isInt, left, right⟩ := sides_numbers sorted arith same I
    exact reduceComparison_denotes strict left right
  · next a b view =>
    obtain ⟨⟨rfl, arith, same⟩, sorted, rfl⟩ := known.of_view view
    obtain ⟨isInt, left, right⟩ := sides_numbers sorted arith same I
    exact reduceComparison_denotes strict left right
  · next a b view =>
    obtain ⟨⟨rfl, same⟩, sorted, rfl⟩ := known.of_view view
    refine ensures_peek_bind ?_
    split
    · next arith =>
      obtain ⟨isInt, left, right⟩ := sides_numbers sorted arith same I
      refine (reduceComparison_denotes strict left right).imp fun o after _ result => ?_
      have equation : (s.value I a = s.value I b) ↔ s.num I a = s.num I b := by
        rw [left.value_eq, right.value_eq, Value.number.injEq]
      simpa [Op.denote, Op.interpret, equation, Relation.Holds] using result
    · exact ensures_failed
  · next a b view =>
    obtain ⟨⟨rfl, arith, same⟩, sorted, rfl⟩ := known.of_view view
    obtain ⟨isInt, left, right⟩ := sides_numbers sorted arith same I
    exact reduceStrict_denotes right left
  · next a b view =>
    obtain ⟨⟨rfl, arith, same⟩, sorted, rfl⟩ := known.of_view view
    obtain ⟨isInt, left, right⟩ := sides_numbers sorted arith same I
    exact reduceStrict_denotes left right
  · next view => exact (known.of_view view).1.elim
  · next a view =>
    obtain ⟨⟨rfl, int | ⟨casts, _⟩⟩, sorted, rfl⟩ := known.of_view view
    · have int : s.sortOf a = .number true := int
      exact reduceToReal_denotes (.self (sorted a (by simp)) int I)
    · exact absurd casts strict
  · next view => exact (known.of_view view).1.elim
  · next op a _ _ _ _ view =>
    split <;> first | exact (known.of_view view).1.elim | exact ensures_failed
  · exact ensures_failed

/-- The rules for numbers ensure what the rule for the head ensures. -/
theorem reduce_ensures {post : Outcome → Store → Prop}
    (ensured : (reduceHead t).Ensures config s post) : (reduce t).Ensures config s post := by
  unfold reduce
  refine ensures_bind ensured fun o after _ holds => ?_
  split
  · exact ensures_modify_bind (ensures_pure holds)
  · exact ensures_pure holds

end Arithmetic

namespace BitVector

open Rule

/-- No rule for bit-vectors applies to a well-sorted term. -/
theorem reduce_failed (sorted : s.WellSorted Γ t) :
    (reduce t).Ensures config s fun o _ => o = .failed := by
  have fits {op : Op} {args : List TermId} (view : s.view t = (op, args)) :
      s.Fits Γ (s.sortOf t) op args := by
    obtain ⟨rfl, rfl⟩ := Store.view_eq_iff.mp view
    exact sorted.fits
  unfold reduce
  refine ensures_peek_bind ?_
  split
  · next view => exact (fits view).elim
  · next view => exact (fits view).elim
  · next view => exact (fits view).elim
  · next view => exact (fits view).elim
  · next op a b _ view =>
    have fits := fits view
    have first : s.WellSorted Γ a := sorted.of_mem_args (by
      rw [(Store.view_eq_iff.mp view).2]
      simp)
    have absent : s.bitVec? a = none := by
      have fits := first.fits
      unfold Store.bitVec?
      split
      · next head =>
        rw [head] at fits
        cases s.args a <;> exact fits.elim
      · rfl
    unfold reduceBinary
    refine ensures_peek_bind (ensures_peek_bind ?_)
    rw [absent]
    refine ensures_peek_bind ?_
    dsimp only
    split <;> first | exact fits.elim | exact ensures_pure rfl
  · exact ensures_pure rfl

end BitVector

/-- Whether the rules for connectives are responsible for an operator. -/
def Op.isConnective : Op → Bool
  | not | and | or | implies | xor | ite | eq | distinct => true
  | _ => false

namespace Rewriting

open Rule

/-- The first family of rules that applies ensures what each family does. -/
theorem reduceBy_ensures {post : Outcome → Store → Prop}
    (failed : ∀ after, s.Extends after → post .failed after)
    (families : List (TermId → Rule Outcome)) (each : ∀ family ∈ families, ∀ now, s.Extends now →
      (family t).Ensures config now post) : (reduceBy families t).Ensures config s post := by
  induction families generalizing s with
  | nil => exact ensures_pure (failed s (.refl s))
  | cons family rest tail =>
    unfold reduceBy
    refine ensures_bind (each family (by simp) s (.refl s)) fun o after grown holds => ?_
    split
    · exact tail (fun later more => failed later (grown.trans more)) fun other member now more =>
        each other (by simp [member]) now (grown.trans more)
    · exact ensures_pure holds

/-- The rules keep the meaning of a well-sorted term without casts of reals. -/
theorem reduce_denotes (strict : ¬Γ.realCasts) (known : s.Denotes Γ I t sort v) :
    (reduce t).Ensures config s fun o after => o.Denotes after Γ I sort v := by
  refine reduceBy_ensures (fun _ _ => Outcome.denotes_failed) _ fun family member now grown => ?_
  have known := known.mono grown
  simp only [List.mem_cons, List.not_mem_nil, or_false] at member
  obtain rfl | rfl | rfl := member
  · exact Connective.reduce_denotes known
  · exact Arithmetic.reduce_ensures (Arithmetic.reduceHead_denotes strict known)
  · refine (BitVector.reduce_failed known.sorted).imp fun o after _ failed => ?_
    rw [failed]
    exact Outcome.denotes_failed

/-- The rules do what those for numbers do if these apply and those for connectives do not. -/
theorem reduce_of_arithmetic {post : Outcome → Store → Prop}
    (silent : (Connective.reduce t).Ensures config s fun o after => o = .failed ∧ after = s)
    (applies : (Arithmetic.reduceHead t).Ensures config s fun o after =>
      o.isFailed = false ∧ post o after) :
    (reduce t).Ensures config s fun o after => o.isFailed = false ∧ post o after := by
  refine ensures_bind silent ?_
  rintro _ s _ ⟨rfl, rfl⟩
  refine ensures_bind (Arithmetic.reduce_ensures applies) fun o _ _ applied => ?_
  rw [if_neg (by simp [applied.1])]
  exact ensures_pure applied

/-- The rules for connectives leave other operators alone. -/
theorem connective_silent {op : Op} {args : List TermId} (view : s.view t = (op, args))
    (other : op.isConnective = false) :
    (Connective.reduce t).Ensures config s fun o after => o = .failed ∧ after = s := by
  unfold Connective.reduce
  refine ensures_peek_bind ?_
  rw [view]
  cases op <;> cases other <;> exact ensures_pure ⟨rfl, rfl⟩

/-- A cast of a real is dropped. -/
theorem reduce_realCast {x : ℝ} (view : s.view t = (.toReal, [a]))
    (number : s.Number Γ I false a x) :
    (reduce t).Ensures config s fun o after =>
      ∃ r, o = .done r ∧ after.Denotes Γ I r .real (.number x) := by
  have answers : (Arithmetic.reduceToReal a).Ensures config s fun o _ => ∃ r, o = .done r := by
    unfold Arithmetic.reduceToReal
    refine ensures_peek_bind ?_
    split
    · exact ensures_bind_of_all fun r _ _ => ensures_pure ⟨r, rfl⟩
    · refine ensures_peek_bind ?_
      rw [number.isInt_eq]
      exact ensures_pure ⟨a, rfl⟩
  have applies : (Arithmetic.reduceHead t).Ensures config s fun o after =>
      o.isFailed = false ∧ ∃ r, o = .done r ∧ after.Denotes Γ I r .real (.number x) := by
    unfold Arithmetic.reduceHead
    refine ensures_peek_bind ?_
    rw [view]
    refine (answers.and (Arithmetic.reduceToReal_denotes number)).imp fun o after _ result => ?_
    obtain ⟨⟨r, rfl⟩, denotes⟩ := result
    exact ⟨rfl, r, rfl, denotes r rfl⟩
  exact (reduce_of_arithmetic (connective_silent view rfl) applies).imp fun _ _ _ result =>
    result.2

/-- No rule applies to a constant or a literal. -/
theorem reduce_atom {op : Op} (view : s.view t = (op, [])) (atom : op.isAtom) :
    (reduce t).Ensures config s fun o after => o = .failed ∧ after = s := by
  have connective : (Connective.reduce t).Ensures config s fun o after =>
      o = .failed ∧ after = s :=
    connective_silent view (by cases op <;> first | rfl | cases atom)
  have arithmetic : (Arithmetic.reduceHead t).Ensures config s fun o after =>
      o = .failed ∧ after = s := by
    unfold Arithmetic.reduceHead
    refine ensures_peek_bind ?_
    rw [view]
    cases op <;> cases atom <;> exact ensures_pure ⟨rfl, rfl⟩
  have bits : (BitVector.reduce t).Ensures config s fun o after => o = .failed ∧ after = s := by
    unfold BitVector.reduce
    refine ensures_peek_bind ?_
    rw [view]
    cases op <;> cases atom <;> exact ensures_pure ⟨rfl, rfl⟩
  refine ensures_bind connective ?_
  rintro o after _ ⟨rfl, rfl⟩
  refine ensures_bind (Arithmetic.reduce_ensures arithmetic) ?_
  rintro o after _ ⟨rfl, rfl⟩
  refine ensures_bind bits ?_
  rintro o after _ ⟨rfl, rfl⟩
  exact ensures_pure ⟨rfl, rfl⟩

end Rewriting

/-- The same constants without casts of reals to reals. -/
def Signature.strict (Γ : Signature) : Signature := { Γ with realCasts := False }

namespace Signature

/-- Terms without casts of reals may have such. -/
theorem strict_within (Γ : Signature) : Γ.strict.Within Γ := ⟨fun _ _ known => known, False.elim⟩

/-- A signature without casts of reals is its own strict one. -/
theorem strict_eq (strict : ¬Γ.realCasts) : Γ.strict = Γ := by
  obtain ⟨constant, casts⟩ := Γ
  have absent : casts = False := eq_false strict
  rw [Signature.strict, absent]

end Signature

/-- A term fits in the place of another one: it is well-sorted and has the same sort; an integer
literal has its place only for itself. -/
structure Store.Matches (s : Store) (Γ : Signature) (u t : TermId) : Prop where
  /-- The term that is replaced is in the store. -/
  inside : t < s.size
  /-- The replacement is well-sorted. -/
  sorted : s.WellSorted Γ u
  /-- The sorts agree. -/
  sort_eq : s.sortOf u = s.sortOf t
  /-- Integer literals stay. -/
  literal : ∀ n, s.op t = .int n → u = t

/-- A term can stand for another one: it fits in its place and has under every assignment the same
value. -/
structure Store.Replaces (s : Store) (Γ : Signature) (u t : TermId) : Prop
    extends s.Matches Γ u t where
  /-- The values agree. -/
  value_eq : ∀ I, s.value I u = s.value I t

namespace Store

variable {u : TermId}

/-- An integer literal has no arguments. -/
theorem WellSorted.args_of_int {n : ℤ} (sorted : s.WellSorted Γ t) (head : s.op t = .int n) :
    s.args t = [] := by
  have fits := sorted.fits
  rw [head] at fits
  cases arguments : s.args t with
  | nil => rfl
  | cons =>
    rw [arguments] at fits
    exact fits.elim

/-- What fits still fits when the store grows. -/
theorem Matches.mono (known : s.Matches Γ u t) (grown : s.Extends after) :
    after.Matches Γ u t where
  inside := grown.lt_size known.inside
  sorted := known.sorted.mono grown
  sort_eq := by
    rw [grown.sortOf_eq known.sorted.inside, grown.sortOf_eq known.inside, known.sort_eq]
  literal := fun n head => known.literal n (by rwa [← grown.op_eq known.inside])

/-- A replacement stays one when the store grows. -/
theorem Replaces.mono (known : s.Replaces Γ u t) (grown : s.Extends after) :
    after.Replaces Γ u t where
  toMatches := known.toMatches.mono grown
  value_eq := fun I => by
    rw [grown.value_eq I known.sorted.inside, grown.value_eq I known.inside, known.value_eq]

/-- A well-sorted term replaces itself. -/
theorem Replaces.refl (sorted : s.WellSorted Γ t) : s.Replaces Γ t t :=
  ⟨⟨sorted.inside, sorted, rfl, fun _ _ => rfl⟩, fun _ => rfl⟩

/-- A replacement of a replacement is a replacement. -/
theorem Replaces.trans {Δ : Signature} {w : TermId} (second : s.Replaces Δ w u)
    (first : s.Replaces Γ u t) : s.Replaces Δ w t where
  inside := first.inside
  sorted := second.sorted
  sort_eq := second.sort_eq.trans first.sort_eq
  value_eq := fun I => (second.value_eq I).trans (first.value_eq I)
  literal := fun n head => by
    obtain rfl := first.literal n head
    exact second.literal n head

/-- Matching terms have the sorts of what they match. -/
theorem Matches.sorts {args args' : List TermId}
    (replaced : List.Forall₂ (s.Matches Γ) args' args) :
    List.Forall₂ (fun u t => s.sortOf u = s.sortOf t ∧ ∀ n, s.op t = .int n → u = t) args' args :=
  replaced.imp fun _ _ known => ⟨known.sort_eq, known.literal⟩

/-- An application stays well-sorted when its arguments are replaced by terms of the same sorts. -/
theorem Fits.replace {op : Op} {args args' : List TermId} (fits : s.Fits Γ sort op args)
    (replaced : List.Forall₂ (fun u t => s.sortOf u = s.sortOf t ∧ ∀ n, s.op t = .int n → u = t)
      args' args) : s.Fits Γ sort op args' := by
  have length := replaced.length_eq
  have sorts : ∀ u ∈ args', ∃ t ∈ args, s.sortOf u = s.sortOf t := by
    intro u member
    obtain ⟨t, member, known⟩ := exists_of_forall₂ replaced member
    exact ⟨t, member, known.1⟩
  revert fits
  match args, args', replaced with
  | [], [], .nil => exact id
  | [a], [a'], .cons first .nil =>
    have same := first.1
    cases op <;> simp [Fits, same]
  | [a, b], [a', b'], .cons first (.cons second .nil) =>
    have := first.1
    have := second.1
    have := second.2
    cases op <;> simp only [Fits, imp_self] <;> grind
  | [a, b, c], [a', b', c'], .cons first (.cons second (.cons third .nil)) =>
    have := first.1
    have := second.1
    have := third.1
    cases op <;> simp only [Fits, imp_self] <;> grind
  | _ :: _ :: _ :: _ :: _, _ :: _ :: _ :: _ :: _, _ =>
    cases op <;> simp only [Fits, imp_self] <;> grind

/-- An application that is well-sorted is so without casts of reals, unless it is such a cast. -/
theorem Fits.strict {op : Op} {args : List TermId} (fits : s.Fits Γ sort op args)
    (int : ∀ a, op = .toReal → args = [a] → s.sortOf a = .int) :
    s.Fits Γ.strict sort op args := by
  revert fits
  unfold Fits
  split <;> intro fits
  case h_22 a => exact ⟨fits.1, .inl (int a rfl rfl)⟩
  all_goals exact fits

end Store

namespace Terms

/-- Rebuilding a term with replaced arguments keeps its head and its sort. -/
theorem rebuild_node {Δ : Signature} {args : List TermId} (sorted : s.WellSorted Γ t)
    (replaced : List.Forall₂ (s.Matches Δ) args (s.args t)) (within : Δ.Within Γ) :
    (rebuild t args).Ensures s fun u after =>
      u < after.size ∧ after.node u = ⟨s.op t, args, s.sortOf t⟩ := by
  unfold rebuild
  refine ensures_read_bind ?_
  dsimp only
  split
  · next same =>
    refine ensures_pure ⟨sorted.inside, ?_⟩
    rw [← same]
    rfl
  · next different =>
    have fits := sorted.fits.replace (Store.Matches.sorts replaced)
    have arguments : ∀ a ∈ args, s.WellSorted Γ a := by
      intro a member
      obtain ⟨b, _, known⟩ := exists_of_forall₂ replaced member
      exact known.sorted.mono_within (.refl s) within
    split
    · next own =>
      have head : (s.op t).hasOwnSort := own
      cases op : s.op t <;> simp [op, Op.hasOwnSort] at head
      all_goals
        rw [op] at fits
        cases args <;> exact fits.elim
    · refine (mkApp_node fun a member => (arguments a member).inside).imp
        fun u after _ found => ⟨found.1, ?_⟩
      have interpreted : ∀ name, s.op t ≠ .var name := by
        intro name head
        have before := sorted.fits
        rw [head] at before
        cases original : s.args t with
        | nil =>
          rw [original] at replaced
          obtain rfl := List.forall₂_nil_right_iff.mp replaced
          exact different original
        | cons =>
          rw [original] at before
          exact before.elim
      rw [found.2]
      exact congrArg _ (inferSort_eq fits arguments interpreted)

/-- Rebuilding a term with arguments that fit in the place of its own gives a term that fits in its
place. -/
theorem rebuild_matches {Δ : Signature} {args : List TermId} (sorted : s.WellSorted Γ t)
    (replaced : List.Forall₂ (s.Matches Δ) args (s.args t)) (within : Δ.Within Γ) :
    (rebuild t args).Ensures s fun u after => after.Matches Γ u t ∧ after.args u = args ∧
      ∀ I, after.value I u = (s.op t).denote I (s.sortOf t) (args.map (s.value I)) := by
  refine (rebuild_node sorted replaced within).imp fun u after grown found => ?_
  have arguments : ∀ a ∈ args, s.WellSorted Γ a := by
    intro a member
    obtain ⟨b, _, known⟩ := exists_of_forall₂ replaced member
    exact known.sorted.mono_within (.refl s) within
  have fits := sorted.fits.replace (Store.Matches.sorts replaced)
  have denotes : ∀ I, after.Denotes Γ I u (s.sortOf t)
      ((s.op t).denote I (s.sortOf t) (args.map (s.value I))) :=
    fun I => denotes_of_node grown found fits arguments
  have nowhere : Assignment := ⟨fun _ => True, fun _ => 0, fun _ => 0⟩
  refine ⟨⟨grown.lt_size sorted.inside, (denotes nowhere).sorted, ?_, ?_⟩, ?_, fun I =>
    (denotes I).value_eq⟩
  · rw [(denotes nowhere).sort_eq, grown.sortOf_eq sorted.inside]
  · intro n head
    rw [grown.op_eq sorted.inside] at head
    rw [sorted.args_of_int head] at replaced
    obtain rfl := List.forall₂_nil_right_iff.mp replaced
    refine Store.eq_of_node_eq found.1 (grown.lt_size sorted.inside) ?_
    rw [found.2, grown.node_eq sorted.inside, ← sorted.args_of_int head]
    rfl
  · rw [Store.args, found.2]

/-- Rebuilding a term with replaced arguments gives a replacement with these arguments. -/
theorem rebuild_replaces {args : List TermId} (sorted : s.WellSorted Γ t)
    (replaced : List.Forall₂ (s.Replaces Γ.strict) args (s.args t)) :
    (rebuild t args).Ensures s fun u after =>
      after.Replaces Γ u t ∧ ∀ a ∈ after.args u, after.WellSorted Γ.strict a := by
  have fitting := replaced.imp fun _ _ (known : s.Replaces Γ.strict _ _) => known.toMatches
  have values : ∀ I, args.map (s.value I) = (s.args t).map (s.value I) := by
    intro I
    refine List.forall₂_eq_eq_eq ▸ ?_
    exact List.forall₂_map_left_iff.mpr (List.forall₂_map_right_iff.mpr
      (replaced.imp fun a b known => known.value_eq I))
  refine (rebuild_matches sorted fitting Γ.strict_within).imp fun u after grown found => ?_
  obtain ⟨fits, arguments, value⟩ := found
  refine ⟨⟨fits, fun I => ?_⟩, ?_⟩
  · rw [value I, values I, ← s.value_eq I t, grown.value_eq I sorted.inside]
  · rw [arguments]
    intro a member
    obtain ⟨b, _, known⟩ := exists_of_forall₂ replaced member
    exact known.sorted.mono grown

end Terms

namespace Rewriting

open Rule

/-- A term whose arguments have no casts of reals has none either, or is such a cast. -/
theorem strict_or_realCast (sorted : s.WellSorted Γ t)
    (args : ∀ a ∈ s.args t, s.WellSorted Γ.strict a) :
    s.WellSorted Γ.strict t ∨ ∃ a, s.view t = (.toReal, [a]) ∧ s.WellSorted Γ.strict a ∧
      s.sortOf a = .number false := by
  by_cases cast : ∃ a, s.view t = (.toReal, [a]) ∧ s.sortOf a = .real
  · obtain ⟨a, view, real⟩ := cast
    obtain ⟨_, arguments⟩ := Store.view_eq_iff.mp view
    exact .inr ⟨a, view, args a (by simp [arguments]), real⟩
  · refine .inl (.intro sorted.inside (sorted.fits.strict fun a head arguments => ?_) args)
    have fits := sorted.fits
    rw [head, arguments] at fits
    obtain ⟨_, int | ⟨_, real⟩⟩ := fits
    · exact int
    · exact absurd ⟨a, Store.view_eq_iff.mpr ⟨head, arguments⟩, real⟩ cast

/-- The rules find a replacement for a term whose arguments have no casts of reals: the result, or
the term itself if no rule applies. -/
theorem reduce_replaces (sorted : s.WellSorted Γ t)
    (args : ∀ a ∈ s.args t, s.WellSorted Γ.strict a) :
    (reduce t).Ensures config s fun o after =>
      after.Replaces Γ.strict (o.result?.getD t) t := by
  have denotes : (reduce t).Ensures config s fun o after => ∀ I,
      after.Denotes Γ.strict I (o.result?.getD t) (s.sortOf t) (s.value I t) := by
    refine ensures_forall fun I => ?_
    obtain strict | ⟨a, view, inner, real⟩ := strict_or_realCast sorted args
    · have known := Store.Denotes.self strict I
      refine (reduce_denotes id known).imp fun o after grown result => ?_
      cases found : o.result? with
      | none => exact known.mono grown
      | some u => exact result u found
    · refine (reduce_realCast view (.self inner real I)).imp fun o after _ result => ?_
      obtain ⟨r, rfl, denotes⟩ := result
      obtain ⟨⟨same, _⟩, _, value⟩ := (Store.Denotes.self sorted I).of_view view
      rw [same, value]
      exact denotes
  have literal : (reduce t).Ensures config s fun o _ => ∀ n, s.op t = .int n →
      o.result?.getD t = t := by
    refine ensures_forall fun n => ensures_forall fun head => ?_
    have view : s.view t = (.int n, []) := Store.view_eq_iff.mpr ⟨head, sorted.args_of_int head⟩
    refine (reduce_atom view rfl).imp fun o _ _ failed => ?_
    rw [failed.1]
    rfl
  refine (denotes.and literal).imp fun o after grown result => ?_
  obtain ⟨denotes, literal⟩ := result
  have nowhere : Assignment := ⟨fun _ => True, fun _ => 0, fun _ => 0⟩
  exact {
    inside := grown.lt_size sorted.inside
    sorted := (denotes nowhere).sorted
    sort_eq := by rw [(denotes nowhere).sort_eq, grown.sortOf_eq sorted.inside]
    value_eq := fun I => by rw [(denotes I).value_eq, grown.value_eq I sorted.inside]
    literal := fun n head => literal n (by rwa [← grown.op_eq sorted.inside]) }

end Rewriting

/-- What a simplifier remembers are replacements of terms in the store. -/
def Simplifier.Sound (r : Simplifier) (s : Store) : Prop :=
  ∀ t u, r.memo[t]? = some u → t < s.size ∧ ∀ Γ, s.WellSorted Γ t → s.Replaces Γ.strict u t

namespace Simplifier

variable {r : Simplifier}

/-- What a simplifier remembers stays sound when the store grows. -/
theorem Sound.mono (sound : r.Sound s) (grown : s.Extends after) : r.Sound after := by
  intro t u found
  obtain ⟨inside, replaces⟩ := sound t u found
  refine ⟨grown.lt_size inside, fun Γ sorted => ?_⟩
  exact (replaces Γ (sorted.of_extends grown inside)).mono grown

/-- A simplifier that remembers nothing is sound. -/
theorem sound_of_empty (empty : r.memo = ∅) : r.Sound s := by
  intro t u found
  simp [empty] at found

/-- One more replacement keeps a simplifier sound. -/
theorem Sound.insert (sound : r.Sound s) {u : TermId} (inside : t < s.size)
    (replaces : ∀ Γ, s.WellSorted Γ t → s.Replaces Γ.strict u t) :
    { r with memo := r.memo.insert t u }.Sound s := by
  intro t' u' found
  dsimp only at found
  rw [Std.HashMap.getElem?_insert] at found
  split at found
  · next same =>
    obtain rfl := eq_of_beq same
    obtain rfl := Option.some.inj found
    exact ⟨inside, replaces⟩
  · exact sound t' u' found

end Simplifier

namespace Rewriting

variable {r : Simplifier} {context : Context} {limit : ℕ}

/-- Running a rule, and then a rewriting with its result. -/
theorem ensures_runRule_bind {α β : Type} {rule : Rule α} {post : α → Store → Prop}
    {next : α → Rewriting β} {good : β → Simplifier → Store → Prop}
    {bad : Error → Simplifier → Store → Prop} (ensured : rule.Ensures r.config s post)
    (rest : ∀ a tally after, s.Extends after → post a after →
      (next a).Ensures { r with tally } after good bad) :
    ((liftM (runRule rule) : Rewriting α) >>= next).Ensures r s good bad := by
  show (((rule.run r.config).run r.tally) >>= fun found =>
    (next found.1).runFrom { r with tally := found.2 }).Ensures s _
  have first : ((rule.run r.config).run r.tally).Ensures s fun found after => post found.1 after :=
    ensured r.tally
  exact Terms.ensures_bind first fun found after grown holds =>
    rest found.1 found.2 after grown holds

/-- What is remembered is a replacement. -/
theorem remembered_ensures {depth : Option ℕ} (sound : r.Sound s) :
    (remembered depth t).Ensures r s (fun found r' after => r' = r ∧ after = s ∧
      ∀ u, found = some u → ∀ Γ, s.WellSorted Γ t → s.Replaces Γ.strict u t)
      (fun _ r' after => r'.Sound after) := by
  unfold remembered
  split
  · exact Attempt.ensures_get_bind (Attempt.ensures_pure ⟨rfl, rfl, fun u found => (sound t u found).2⟩)
  · exact Attempt.ensures_pure ⟨rfl, rfl, nofun⟩

/-- A step changes nothing that is remembered, and leaves the store as it is. -/
theorem step_ensures (sound : r.Sound s) :
    (step context limit).Ensures r s (fun _ r' after => r'.Sound s ∧ after = s)
      (fun _ r' after => r'.Sound after) := by
  unfold step
  refine Attempt.ensures_modify_bind (Attempt.ensures_get_bind ?_)
  split
  · exact Attempt.ensures_throw sound
  · refine Attempt.ensures_read_bind ?_
    cases context.check s with
    | ok => exact Attempt.ensures_pure ⟨sound, rfl⟩
    | error => exact Attempt.ensures_throw sound

/-- A term that is known is in the store. -/
theorem known_ensures (sound : r.Sound s) :
    (known t).Ensures r s (fun _ r' after => r' = r ∧ after = s ∧ t < s.size)
      (fun _ r' after => r'.Sound after) := by
  unfold known
  refine Attempt.ensures_read_bind ?_
  split
  · exact Attempt.ensures_throw sound
  · next inside => exact Attempt.ensures_pure ⟨rfl, rfl, Nat.lt_of_not_le inside⟩

/-- Counting a rule changes nothing that is remembered. -/
theorem countRule_ensures {o : Outcome} (sound : r.Sound s) :
    (countRule o).Ensures r s (fun _ r' after => r'.Sound s ∧ after = s)
      (fun _ r' after => r'.Sound after) := by
  unfold countRule
  split
  · exact Attempt.ensures_pure ⟨sound, rfl⟩
  · exact ⟨sound, rfl⟩

/-- Remembering a replacement keeps a simplifier sound. -/
theorem remember_ensures {depth : Option ℕ} {u : TermId} (sound : r.Sound s) (inside : t < s.size)
    (replaces : depth = none → ∀ Γ, s.WellSorted Γ t → s.Replaces Γ.strict u t) :
    (remember depth t u).Ensures r s (fun _ r' after => r'.Sound s ∧ after = s)
      (fun _ r' after => r'.Sound after) := by
  unfold remember
  split
  · next complete =>
    exact ⟨sound.insert inside (replaces (Option.isNone_iff_eq_none.mp complete)), rfl⟩
  · exact Attempt.ensures_pure ⟨sound, rfl⟩

/-- A term is replaced by another one wherever it is well-sorted; if `strict` is set, only where it
has no casts of reals. -/
def ReplacesAll (strict : Bool) (s after : Store) (u t : TermId) : Prop :=
  ∀ Γ : Signature, (strict → ¬Γ.realCasts) → s.WellSorted Γ t → after.Replaces Γ.strict u t

/-- A visit keeps a simplifier sound and gives a replacement of the term. Down to a depth this is
only so for terms without casts of reals, since such a cast may stand below. -/
def Replacing (visit : Option ℕ → TermId → Rewriting TermId) : Prop :=
  ∀ (depth : Option ℕ) (t : TermId) {r : Simplifier} {s : Store}, r.Sound s →
    (visit depth t).Ensures r s
      (fun u r' after => r'.Sound after ∧ ReplacesAll depth.isSome s after u t)
      (fun _ r' after => r'.Sound after)

/-- Simplifying a term in the store gives a replacement if visiting other terms does. -/
theorem rewriteWith_ensures {visit : Option ℕ → TermId → Rewriting TermId}
    (visited : Replacing visit) (depth : Option ℕ) (sound : r.Sound s) (inside : t < s.size) :
    (rewriteWith visit depth t).Ensures r s
      (fun u r' after => r'.Sound after ∧ ReplacesAll depth.isSome s after u t)
      (fun _ r' after => r'.Sound after) := by
  unfold rewriteWith
  refine Attempt.ensures_read_bind ?_
  -- The arguments are replaced one after the other.
  have each : ∀ a ∈ s.args t, ∀ r' now, s.Extends now → r'.Sound now →
      (visit (below depth) a).Ensures r' now (fun b r'' after =>
        r''.Sound after ∧ ReplacesAll depth.isSome s after b a)
        (fun _ r'' after => r''.Sound after) := by
    intro a member r' now grown sound
    refine (visited (below depth) a sound).imp (fun b r'' after _ result => ?_)
      fun _ _ _ _ sound => sound
    have same : (below depth).isSome = depth.isSome := by cases depth <;> rfl
    rw [same] at result
    exact ⟨result.1, fun Γ strict sorted => result.2 Γ strict (sorted.mono grown)⟩
  refine Attempt.ensures_bind (Attempt.ensures_mapM (fun a b before after more known Γ strict
    sorted => (known Γ strict sorted).mono more) (s.args t) sound each)
    fun args r' middle grown result => ?_
  obtain ⟨sound, replaced⟩ := result
  have rebuilt : (Terms.rebuild t args).Ensures middle fun u after => ∀ Γ : Signature,
      (depth.isSome → ¬Γ.realCasts) → s.WellSorted Γ t →
      after.Replaces Γ u t ∧ ∀ a ∈ after.args u, after.WellSorted Γ.strict a := by
    intro Γ strict sorted
    refine Terms.rebuild_replaces (sorted.mono grown) ?_
    rw [grown.args_eq inside]
    have both := (List.forall₂_and_left _ _).mpr
      ⟨fun a member => sorted.of_mem_args member, replaced⟩
    exact both.flip.imp fun b a known => known.2 Γ strict known.1
  refine Attempt.ensures_build_bind rebuilt fun u after more rebuilt => ?_
  have reduced : (reduce u).Ensures r'.config after fun o last => ∀ Γ : Signature,
      (depth.isSome → ¬Γ.realCasts) → s.WellSorted Γ t →
      last.Replaces Γ.strict (o.result?.getD u) t := by
    refine Rule.ensures_forall fun Γ => Rule.ensures_forall fun strict =>
      Rule.ensures_forall fun sorted => ?_
    obtain ⟨replaces, arguments⟩ := rebuilt Γ strict sorted
    exact (reduce_replaces replaces.sorted arguments).imp fun o last most result =>
      result.trans (replaces.mono most)
  refine ensures_runRule_bind reduced fun o tally last most reduced => ?_
  have sound : { r' with tally }.Sound last := (sound.mono more).mono most
  refine Attempt.ensures_bind (countRule_ensures sound) ?_
  rintro _ r'' last _ ⟨sound, rfl⟩
  -- The result of a rule is visited again as far as the rule asks for.
  have again : ∀ (further : Option ℕ) (w : TermId), o.result? = some w →
      (visit further w).Ensures r'' last
        (fun u finished after => finished.Sound after ∧ ReplacesAll depth.isSome s after u t)
        (fun _ finished after => finished.Sound after) := by
    intro further w applied
    refine (visited further w sound).imp (fun u finished after more result => ?_)
      fun _ _ _ _ sound => sound
    refine ⟨result.1, fun Γ strict sorted => ?_⟩
    have replaces := reduced Γ strict sorted
    rw [applied, Option.getD_some] at replaces
    exact (result.2 Γ.strict (fun _ => id) replaces.sorted).trans (replaces.mono more)
  cases o with
  | failed => exact Attempt.ensures_pure ⟨sound, reduced⟩
  | done w => exact Attempt.ensures_pure ⟨sound, reduced⟩
  | revisit further w => exact again (some further) w rfl
  | revisitAll w => exact again none w rfl

/-- Visiting a term keeps a simplifier sound and gives a replacement of the term. -/
theorem visit_replacing (context : Context) (limit fuel : ℕ) :
    Replacing (visit context limit fuel) := by
  induction fuel with
  | zero => exact fun _ _ _ _ sound => Attempt.ensures_throw sound
  | succ fuel visited =>
    intro depth t r s sound
    unfold visit
    split
    · next stop =>
      refine Attempt.ensures_pure ⟨sound, fun Γ strict sorted => ?_⟩
      rw [Γ.strict_eq (strict (by simp [stop]))]
      exact .refl sorted
    refine Attempt.ensures_modify_bind ?_
    have sound : { r with visited := r.visited + 1 }.Sound s := sound
    generalize { r with visited := r.visited + 1 } = r at sound
    refine Attempt.ensures_bind (remembered_ensures sound) ?_
    rintro found r' _ _ ⟨rfl, rfl, remembered⟩
    split
    · next u =>
      refine Attempt.ensures_modify_bind (Attempt.ensures_pure ⟨sound, fun Γ _ sorted => ?_⟩)
      exact remembered u rfl Γ sorted
    refine Attempt.ensures_bind (step_ensures sound) ?_
    rintro _ r' _ _ ⟨sound, rfl⟩
    refine Attempt.ensures_bind (known_ensures sound) ?_
    rintro _ r' s _ ⟨rfl, rfl, inside⟩
    refine Attempt.ensures_bind (rewriteWith_ensures visited depth sound inside)
      fun u finished final grown result => ?_
    obtain ⟨sound, replaces⟩ := result
    refine Attempt.ensures_bind (remember_ensures sound (grown.lt_size inside) ?_) ?_
    · rintro rfl Γ sorted
      exact replaces Γ nofun (sorted.of_extends grown inside)
    · rintro _ _ _ _ ⟨sound, rfl⟩
      exact Attempt.ensures_pure ⟨sound, replaces⟩

/-- Simplifying a term keeps a simplifier sound and gives a replacement of the term. -/
theorem simplifyWithin_ensures (sound : r.Sound s) :
    (simplifyWithin context limit t).Ensures r s
      (fun u r' after => r'.Sound after ∧ ∀ Γ, s.WellSorted Γ t → after.Replaces Γ.strict u t)
      (fun _ r' after => r'.Sound after) := by
  have sound : { r with steps := 0 }.Sound s := sound
  refine Attempt.ensures_modify_bind ((visit_replacing context limit (limit + 1) none t sound).imp
    (fun u r' after _ result => ⟨result.1, fun Γ => result.2 Γ nofun⟩) fun _ _ _ _ sound => sound)

end Rewriting

end Stratagem
