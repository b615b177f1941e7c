import Stratagem.Proofs.Rewriting.Folding
import Stratagem.Proofs.Rewriting.Fragment

/-!
# Simplification of ground terms

The simplifier turns a well-sorted term without constants into the literal of its value. An operator
on literals is done at once, or becomes another term of at most two levels over literals, which its
rule asks to be visited as far down as that.
-/
namespace Stratagem

open Terms Rule

/-- A literal, or an operator on literals that the rules are done with at once. -/
def Store.Ready (s : Store) (v : Scalar) (t : TermId) : Prop :=
  s.Literal v t ∨ ∃ op vs args, op.isDirect = true ∧ s.Applies op vs v args t

/-- An operator that the rules are done with at once, on at most two terms that are ready. -/
def Store.Pending (s : Store) (v : Scalar) (t : TermId) : Prop :=
  ∃ op vs args, op.isDirect = true ∧ args.length ≤ 2 ∧ s.Built op args v.sort t ∧
    List.Forall₂ s.Ready vs args ∧ op.operate vs = some v

/-- Operators with values have the sort that their constructor gives them. -/
theorem Op.hasOwnSort_of_operate {op : Op} {vs : List Scalar} {v : Scalar}
    (value : op.operate vs = some v) : op.hasOwnSort = false := by
  cases op with
  | apply | universal | existential => simp [Op.operate] at value
  | _ => rfl

namespace Store

variable {s after : Store} {vs : List Scalar} {v : Scalar} {args : List TermId} {t : TermId}

/-- The sorts of literals. -/
theorem sorts_of_literals (known : s.Literals vs args) :
    args.map s.sortOf = vs.map Scalar.sort := by
  rw [← List.forall₂_eq_eq_eq, List.forall₂_map_left_iff, List.forall₂_map_right_iff]
  exact known.flip.imp fun a v literal => literal.sort

/-- The sorts of terms are those of their values. -/
theorem sorts_of_values {I : TermId → Option Scalar}
    (values : List.Forall₂ (fun a w => s.evaluate I a = some w) args vs) :
    args.map s.sortOf = vs.map Scalar.sort := by
  rw [← List.forall₂_eq_eq_eq, List.forall₂_map_left_iff, List.forall₂_map_right_iff]
  exact values.imp fun a w value => (sort_of_evaluate value).symm

/-- Terms that become the literals of their values become literals of those values. -/
theorem literals_of_values {I : TermId → Option Scalar} {results : List TermId}
    (values : List.Forall₂ (fun a w => s.evaluate I a = some w) args vs)
    (found : List.Forall₂ (fun a u => ∀ w, s.evaluate I a = some w → after.Literal w u) args
      results) : after.Literals vs results := by
  induction values generalizing results with
  | nil =>
    obtain rfl := List.forall₂_nil_left_iff.mp found
    exact .nil
  | cons value _ tail =>
    obtain ⟨u, rest, known, others, rfl⟩ := List.forall₂_cons_left_iff.mp found
    exact .cons (known _ value) (tail others)

/-- The value of a literal. -/
theorem Literal.evaluate (known : s.Literal v t) (I : TermId → Option Scalar) :
    s.evaluate I t = some v := by
  have head : s.op t = v.literal.op := congrArg Node.op known.node
  refine (evaluate_eq_some fun name var => ?_).mpr ⟨[], ?_, ?_, known.sort.symm⟩
  · rw [head] at var
    cases v <;> cases var
  · rw [args, known.node, v.literal_args]
    exact .nil
  · rw [head]
    exact v.operate_literal

/-- The value of an operator on literals. -/
theorem Applies.evaluate {op : Op} (known : s.Applies op vs v args t)
    (I : TermId → Option Scalar) : s.evaluate I t = some v :=
  known.toBuilt.evaluate (known.literals.flip.imp fun a w literal => literal.evaluate I) known.value
    rfl

namespace Ready

/-- The value of a term that is ready. -/
theorem evaluate (known : s.Ready v t) (I : TermId → Option Scalar) : s.evaluate I t = some v := by
  rcases known with literal | ⟨_, _, _, _, applies⟩
  · exact literal.evaluate I
  · exact applies.evaluate I

/-- A term that is ready stays so when the store grows. -/
theorem mono (known : s.Ready v t) (grown : s.Extends after) : after.Ready v t := by
  rcases known with literal | ⟨op, vs, args, direct, applies⟩
  · exact .inl (literal.mono grown)
  · exact .inr ⟨op, vs, args, direct, applies.mono grown⟩

/-- A term that is ready is in the store. -/
theorem inside (known : s.Ready v t) : t < s.size := by
  rcases known with literal | ⟨_, _, _, _, applies⟩
  · exact literal.inside
  · exact applies.inside

/-- The sort of a term that is ready is that of the value. -/
theorem sort (known : s.Ready v t) : s.sortOf t = v.sort := by
  rcases known with literal | ⟨_, _, _, _, applies⟩
  · exact literal.sort
  · exact congrArg Node.sort applies.node

end Ready

end Store

namespace Rewriting

variable {context : Context} {limit fuel : ℕ} {r : Simplifier} {s : Store} {op : Op}
  {vs : List Scalar} {v w : Scalar} {args : List TermId} {t a b : TermId}

section Building

/-- An operator is built on literals. -/
theorem mkApp_ready (direct : op.isDirect = true) (literals : s.Literals vs args)
    (value : op.operate vs = some v) (same : v.sort = s.inferSort op args) :
    (mkApp op args).Ensures s fun u after => after.Ready v u := by
  have inside : ∀ a ∈ args, a < s.size := by
    intro a member
    obtain ⟨_, _, literal⟩ := exists_of_forall₂ literals.flip member
    exact literal.inside
  refine (mkApp_built inside same).imp fun u after grown built => ?_
  exact .inr ⟨op, vs, args, direct, built, literals.imp fun _ _ known => known.mono grown, value⟩

/-- An operator is built on terms that are ready. -/
theorem mkApp_pending (direct : op.isDirect = true) (few : args.length ≤ 2)
    (ready : List.Forall₂ s.Ready vs args) (value : op.operate vs = some v)
    (same : v.sort = s.inferSort op args) :
    (mkApp op args).Ensures s fun u after => after.Pending v u := by
  have inside : ∀ a ∈ args, a < s.size := by
    intro a member
    obtain ⟨_, _, known⟩ := exists_of_forall₂ ready.flip member
    exact Store.Ready.inside known
  refine (mkApp_built inside same).imp fun u after grown built => ?_
  exact ⟨op, vs, args, direct, few, built, ready.imp fun _ _ known => Store.Ready.mono known grown,
    value⟩

/-- Literals are put in the place of the arguments of an application. -/
theorem rebuild_applies {old : List TermId} (known : s.Built op old v.sort t)
    (literals : s.Literals vs args) (sorts : old.map s.sortOf = vs.map Scalar.sort)
    (value : op.operate vs = some v) :
    (rebuild t args).Ensures s fun u after => after.Applies op vs v args u := by
  have inside : ∀ a ∈ args, a < s.size := by
    intro a member
    obtain ⟨_, _, literal⟩ := exists_of_forall₂ literals.flip member
    exact literal.inside
  refine (rebuild_built known (Op.hasOwnSort_of_operate value) inside
    ((Store.sorts_of_literals literals).trans sorts.symm)).imp fun u after grown built => ?_
  exact ⟨built, literals.imp fun _ _ known => known.mono grown, value⟩

/-- A negation is built on a formula that is ready. -/
theorem mkNot_pending {p : Bool} (ready : s.Ready (.truth p) a) :
    (mkNot a).Ensures s fun q after => after.Pending (.truth !p) q :=
  mkApp_pending rfl (by simp) (.cons ready .nil) rfl rfl

end Building

section Rules

/-- A rule is done with a literal, or asks for a visit two levels down of a term that becomes the
literal there, or leaves the literal alone. -/
def Settles (v : Scalar) (t : TermId) (o : Outcome) (s : Store) : Prop :=
  o.Gives s v ∨ (∃ q, o = .revisit 2 q ∧ s.Pending v q) ∨ (o = .failed ∧ s.Literal v t)

/-- A rule that is done with a literal settles it. -/
theorem settles_of_gives (gives : (reduce t).Ensures {} s fun o after => o.Gives after v) :
    (reduce t).Ensures {} s (Settles v t) := gives.imp fun _ _ _ found => .inl found

/-- A negation of a formula that is ready is settled by another visit. -/
theorem negation_settles {work : Terms TermId} {p : Bool}
    (built : work.Ensures s fun e after => after.Ready (.truth p) e) :
    (liftM work >>= fun e => liftM (mkNot e) >>= fun q => pure (.revisit 2 q) :
      Rule Outcome).Ensures {} s fun o after =>
        o.isFailed = false ∧ Settles (.truth !p) t o after := by
  refine ensures_bind (ensures_lift built) fun e middle _ ready => ?_
  refine ensures_bind (ensures_lift (mkNot_pending ready)) fun q after _ pending => ?_
  exact ensures_pure ⟨rfl, .inr (.inl ⟨q, rfl, pending⟩)⟩

/-- An implication is settled as a disjunction. -/
theorem reduce_implies (known : s.Applies .implies vs v args t) :
    (reduce t).Ensures {} s (Settles v t) := by
  obtain ⟨p, q, rfl, rfl⟩ := Scalar.truths_eq_some known.value
  obtain ⟨a, b, rfl, left, right⟩ := Store.literals_two known.literals
  apply reduce_of_connective
  unfold Connective.reduce
  refine ensures_peek_bind ?_
  rw [known.view]
  have negated : (mkNot a).Ensures s fun n after => after.Ready (.truth !p) n :=
    mkApp_ready rfl (.cons left .nil) rfl rfl
  have joined {n : TermId} {middle : Store} (grown : s.Extends middle)
      (ready : middle.Ready (.truth !p) n) :
      (mkOr [n, b]).Ensures middle fun u after => after.Pending (.truth (!p || q)) u := by
    have value : Op.or.operate [.truth !p, .truth q] = some (.truth (!p || q)) := by
      cases p <;> cases q <;> rfl
    exact mkApp_pending rfl (by simp) (.cons ready (.cons (.inl (right.mono grown)) .nil)) value rfl
  refine ensures_bind (ensures_lift negated) fun n middle grown ready => ?_
  refine ensures_bind (ensures_lift (joined grown ready)) fun u after _ pending => ?_
  exact ensures_pure ⟨rfl, .inr (.inl ⟨u, rfl, pending⟩)⟩

/-- An exclusive disjunction is settled as a negated equation. -/
theorem reduce_xor (known : s.Applies .xor vs v args t) :
    (reduce t).Ensures {} s (Settles v t) := by
  obtain ⟨p, q, rfl, rfl⟩ := Scalar.truths_eq_some known.value
  obtain ⟨a, b, rfl, left, right⟩ := Store.literals_two known.literals
  apply reduce_of_connective
  unfold Connective.reduce
  refine ensures_peek_bind ?_
  rw [known.view]
  have value : Op.eq.operate [.truth p, .truth q] = some (.truth !(p ^^ q)) := by
    cases p <;> cases q <;> rfl
  have equation : (mkEq a b).Ensures s fun e after => after.Ready (.truth !(p ^^ q)) e :=
    mkApp_ready rfl (.cons left (.cons right .nil)) value rfl
  rw [← Bool.not_not (p ^^ q)]
  exact negation_settles equation

/-- Literals are told apart pairwise; two different ones are settled as a negated equation. -/
theorem reduce_differ (known : s.Applies .distinct vs v args t) :
    (reduce t).Ensures {} s (Settles v t) := by
  obtain ⟨⟨inside, node, _⟩, literals, value⟩ := known
  obtain ⟨same, result⟩ := Option.ite_none_right_eq_some.mp value
  obtain rfl := Option.some.inj result
  have whole : s.nodes[t]? = some ⟨.distinct, args, .bool⟩ := node ▸ Store.getElem?_eq_node inside
  by_cases pair : args.length = 2 ∧ args.Nodup
  · obtain ⟨two, nodup⟩ := pair
    obtain ⟨a, b, rfl⟩ := List.length_eq_two.mp two
    obtain ⟨w, z, rfl⟩ := List.length_eq_two.mp (literals.length_eq.trans two)
    obtain ⟨_, _, arguments, left, right⟩ := Store.literals_two literals
    obtain ⟨rfl, rfl⟩ : _ ∧ _ := by simpa using arguments
    have different : a ≠ b := by simpa using nodup
    refine (reduce_distinct_pair whole different left.inside right.inside).imp ?_
    rintro o after grown ⟨e, q, again, equation, negation⟩
    have unequal : w ≠ z := fun equal => different ((left.eq_iff right).mpr equal)
    have sorts : w.sort = z.sort := same w (by simp) z (by simp)
    have ready : after.Ready (.truth false) e := by
      obtain ⟨inside, node⟩ := Store.node_of_getElem? equation
      refine .inr ⟨.eq, [w, z], [a, b], rfl, ⟨inside, node, rfl⟩, ?_, ?_⟩
      · exact .cons (left.mono grown) (.cons (right.mono grown) .nil)
      · simp [Op.operate, sorts, unequal]
    obtain ⟨inside, node⟩ := Store.node_of_getElem? negation
    refine .inr (.inl ⟨q, again, .not, [.truth false], [e], rfl, by simp, ⟨inside, ?_, rfl⟩,
      .cons ready .nil, ?_⟩)
    · exact node
    · simp [Op.operate, unequal]
  · have each : ∀ a ∈ args, s.isValue a = true := by
      intro a member
      obtain ⟨_, _, literal⟩ := exists_of_forall₂ literals.flip member
      exact literal.isValue
    refine settles_of_gives ((reduce_distinct whole each fun two nodup =>
      pair ⟨two, nodup⟩).imp ?_)
    rintro _ after _ ⟨rfl, rfl⟩
    rw [decide_eq_decide.mpr (Store.literals_nodup literals)]
    exact ⟨_, rfl, .ofBool _ _⟩

/-- The rules for numbers settle a value if the rules for connectives do not apply. -/
theorem settles_of_arithmetic (view : s.view t = (op, args)) (other : op.isConnective = false)
    (settles : (Arithmetic.reduceHead t).Ensures {} s fun o after =>
      o.isFailed = false ∧ Settles v t o after) :
    (reduce t).Ensures {} s (Settles v t) :=
  (reduce_of_arithmetic (connective_silent view other) settles).imp fun _ _ _ found => found.2

/-- A number is less than another one if that is not at most the first. -/
theorem isLT_compare {α : Type} [LinearOrder α] (x y : α) :
    (compare x y).isLT = !(compare y x).isLE := by
  rw [Std.OrientedOrd.eq_swap]
  cases compare y x <;> rfl

/-- A number is greater than another one if it is not at most that. -/
theorem isGT_eq_not_isLE (o : Ordering) : o.isGT = !o.isLE := by cases o <;> rfl

/-- A strict comparison is settled as a negated comparison the other way. -/
theorem reduce_lt (known : s.Applies .lt vs v args t) : (reduce t).Ensures {} s (Settles v t) := by
  refine settles_of_arithmetic known.view rfl ?_
  unfold Arithmetic.reduceHead
  refine ensures_peek_bind ?_
  rw [known.view]
  rcases Scalar.order_eq_some known.value with ⟨n, k, rfl, rfl⟩ | ⟨x, y, rfl, rfl⟩
  · obtain ⟨a, b, rfl, left, right⟩ := Store.literals_two known.literals
    rw [isLT_compare]
    exact negation_settles (mkApp_ready rfl (.cons right (.cons left .nil)) rfl rfl)
  · obtain ⟨a, b, rfl, left, right⟩ := Store.literals_two known.literals
    rw [isLT_compare]
    exact negation_settles (mkApp_ready rfl (.cons right (.cons left .nil)) rfl rfl)

/-- A strict comparison is settled as a negated comparison the other way. -/
theorem reduce_gt (known : s.Applies .gt vs v args t) : (reduce t).Ensures {} s (Settles v t) := by
  refine settles_of_arithmetic known.view rfl ?_
  unfold Arithmetic.reduceHead
  refine ensures_peek_bind ?_
  rw [known.view]
  rcases Scalar.order_eq_some known.value with ⟨n, k, rfl, rfl⟩ | ⟨x, y, rfl, rfl⟩
  · obtain ⟨a, b, rfl, left, right⟩ := Store.literals_two known.literals
    rw [isGT_eq_not_isLE]
    exact negation_settles (mkApp_ready rfl (.cons left (.cons right .nil)) rfl rfl)
  · obtain ⟨a, b, rfl, left, right⟩ := Store.literals_two known.literals
    rw [isGT_eq_not_isLE]
    exact negation_settles (mkApp_ready rfl (.cons left (.cons right .nil)) rfl rfl)

/-- A difference is settled as a sum with a product with minus one. -/
theorem reduceSub_settles {isInt : Bool} {x y minus product : Scalar} (int : s.isInt t = isInt)
    (left : s.Literal x a) (right : s.Literal y b)
    (literal : (mkNumeral (-1) isInt).Ensures s fun u after => after.Literal minus u)
    (sorts : ∀ w ∈ [x, y, minus, product, v], w.sort = .number isInt)
    (negated : Op.mul.operate [minus, y] = some product)
    (summed : Op.add.operate [x, product] = some v) :
    (Arithmetic.reduceSub t a b).Ensures {} s fun o after =>
      o.isFailed = false ∧ Settles v t o after := by
  have join {s : Store} {a b : TermId} (first : s.sortOf a = .number isInt)
      (second : s.sortOf b = .number isInt) : TermSort.number isInt = s.arithJoin [a, b] :=
    (arithJoin_eq (by simp) (by simp) (by simp [first, second])).symm
  simp only [List.forall_mem_cons] at sorts
  obtain ⟨xs, ys, ms, ps, vs, _⟩ := sorts
  unfold Arithmetic.reduceSub
  refine ensures_peek_bind ?_
  rw [int]
  refine ensures_bind (ensures_lift literal) fun u middle grown minus => ?_
  have right := right.mono grown
  have left := left.mono grown
  have multiplied : (mkMul [u, b]).Ensures middle fun n after => after.Ready product n :=
    mkApp_ready rfl (.cons minus (.cons right .nil)) negated
      (ps.trans (join (minus.sort.trans ms) (right.sort.trans ys)))
  refine ensures_bind (ensures_lift multiplied) fun n middle grown ready => ?_
  have left := left.mono grown
  have added : (mkAdd [a, n]).Ensures middle fun q after => after.Pending v q :=
    mkApp_pending rfl (by simp) (.cons (.inl left) (.cons ready .nil)) summed
      (vs.trans (join (left.sort.trans xs) (ready.sort.trans ps)))
  refine ensures_bind (ensures_lift added) fun q after _ pending => ?_
  exact ensures_pure ⟨rfl, .inr (.inl ⟨q, rfl, pending⟩)⟩

/-- A difference of literals is settled as a sum. -/
theorem reduce_sub (known : s.Applies .sub vs v args t) : (reduce t).Ensures {} s (Settles v t) := by
  refine settles_of_arithmetic known.view rfl ?_
  unfold Arithmetic.reduceHead
  refine ensures_peek_bind ?_
  rw [known.view]
  have sort : s.sortOf t = v.sort := congrArg Node.sort known.node
  obtain ⟨_, literals, value⟩ := known
  unfold Op.operate at value
  dsimp only at value
  split at value
  · next n k =>
    obtain ⟨a, b, rfl, left, right⟩ := Store.literals_two literals
    obtain rfl := Option.some.inj value
    have int : s.isInt t = true := Store.Numbers.isInt_eq sort
    have literal : (mkNumeral (-1) true).Ensures s fun u after => after.Literal (.int (-1)) u :=
      (Arithmetic.mkNumeral_literal fun _ => rfl).imp fun u after _ found =>
        Store.Literal.int_iff.mpr found
    have difference : n - k = [n, -1 * (k * 1)].sum := by
      simp
      ring
    have summed : Op.add.operate [.int n, .int (-1 * (k * 1))] = some (.int (n - k)) := by
      rw [difference]
      rfl
    exact reduceSub_settles int left right literal (by simp [Scalar.sort, TermSort.number]) rfl summed
  · next x y =>
    obtain ⟨a, b, rfl, left, right⟩ := Store.literals_two literals
    obtain rfl := Option.some.inj value
    have real : s.isInt t = false := Store.Numbers.isInt_eq sort
    have integral : false = true → Rational.isIntegral (-1) = true := by simp
    have literal : (mkNumeral (-1) false).Ensures s fun u after => after.Literal (.real (-1)) u :=
      (Arithmetic.mkNumeral_literal integral).imp fun u after _ found =>
        Store.Literal.real_iff.mpr found
    have difference : x - y = [x, -1 * (y * 1)].sum := by
      simp
      ring
    have summed : Op.add.operate [.real x, .real (-1 * (y * 1))] = some (.real (x - y)) := by
      rw [difference]
      rfl
    exact reduceSub_settles real left right literal (by simp [Scalar.sort, TermSort.number]) rfl
      summed
  · cases value

/-- A literal as an application without arguments. -/
theorem literal_of_fixed {w : Scalar} (value : Scalar.fixed w vs = some v)
    (known : s.Built w.literal.op args v.sort t) (literals : s.Literals vs args) :
    s.Literal v t := by
  obtain ⟨rfl, rfl⟩ := Scalar.fixed_eq_some value
  obtain rfl := List.forall₂_nil_left_iff.mp literals
  refine ⟨known.inside, known.node.trans ?_⟩
  rw [← v.literal_sort, ← v.literal_args]

/-- The rules settle every operator on literals. -/
theorem reduce_settles (known : s.Applies op vs v args t) :
    (reduce t).Ensures {} s (Settles v t) := by
  have atom (literal : s.Literal v t) : (reduce t).Ensures {} s (Settles v t) := by
    refine (reduce_atom literal.view v.isAtom_literal).imp fun o after _ failed => ?_
    exact .inr (.inr ⟨failed.1, failed.2 ▸ literal⟩)
  cases op with
  | bool | int | real => exact atom (literal_of_fixed known.value known.toBuilt known.literals)
  | bitVec value width =>
    obtain ⟨fits, fixed⟩ := Option.dite_none_right_eq_some.mp known.value
    exact atom (literal_of_fixed fixed known.toBuilt known.literals)
  | implies => exact reduce_implies known
  | xor => exact reduce_xor known
  | distinct => exact reduce_differ known
  | sub => exact reduce_sub known
  | lt => exact reduce_lt known
  | gt => exact reduce_gt known
  | not | and | or | ite | eq | neg | add | mul | div | intDiv | mod | rem | le | ge | toReal
  | toInt | isInt | bvNot | bvNeg | bvAnd | bvOr | bvXor | bvAdd | bvSub | bvMul | bvConcat
  | bvExtract | bvUlt | bvUle | bvSlt | bvSle =>
    exact settles_of_gives (reduce_direct rfl known)
  | _ => cases known.value

end Rules

section Visits

/-- The rules turn a term that is ready into a literal. -/
theorem brief_conclude_ready (same : r.config = {}) (ready : s.Ready v t) :
    Brief context limit fuel 0 (conclude (visit context limit fuel) t) r s
      fun u after => after.Literal v u := by
  apply brief_conclude
  rw [same]
  rcases ready with literal | ⟨op, vs, args, direct, applies⟩
  · refine (reduce_atom literal.view v.isAtom_literal).imp fun o after _ failed => ?_
    exact .inl ⟨failed.1, failed.2 ▸ literal⟩
  · exact (reduce_direct direct applies).imp fun o after _ gives => .inr (.inl gives)

/-- Visiting a term that is ready gives a literal. -/
theorem brief_visit_ready (same : r.config = {}) (ready : s.Ready v t) :
    Brief context limit fuel 1 (visit context limit fuel (some 1) t) r s
      fun u after => after.Literal v u := by
  apply brief_visit ready.inside
  intro fuel r' config
  apply brief_rewriteWith_one
  intro r'' config'
  exact brief_conclude_ready (config'.trans (config.trans same)) ready

/-- The rules turn an operator whose arguments have become literals into a literal. -/
theorem brief_conclude_direct {old : List TermId} (same : r.config = {})
    (direct : op.isDirect = true) (built : s.Built op old v.sort t) (literals : s.Literals vs args)
    (sorts : old.map s.sortOf = vs.map Scalar.sort) (value : op.operate vs = some v) :
    Brief context limit fuel 0 (do
      let t' ← (rebuild t args : Terms TermId)
      conclude (visit context limit fuel) t') r s fun u after => after.Literal v u := by
  apply Brief.build_bind (rebuild_applies built literals sorts value)
  intro u after _ applies
  exact brief_conclude_ready same (.inr ⟨op, vs, args, direct, applies⟩)

/-- Visiting a pending term two levels down gives a literal. -/
theorem brief_visit_pending (same : r.config = {}) (pending : s.Pending v t) :
    Brief context limit fuel 3 (visit context limit fuel (some 2) t) r s
      fun u after => after.Literal v u := by
  obtain ⟨op, vs, args, direct, few, built, ready, value⟩ := pending
  have arguments : s.args t = args := by rw [Store.args, built.node]
  have values : List.Forall₂ (fun a w => s.evaluate (fun _ => none) a = some w) args vs :=
    ready.flip.imp fun a w known => Store.Ready.evaluate known _
  apply brief_visit built.inside
  intro fuel r' config
  have visited : Brief context limit fuel (args.map fun _ => 1).sum
      ((s.args t).mapM (visit context limit fuel (some 1))) r' s fun results after =>
        List.Forall₂ (fun a u => ∀ w, s.evaluate (fun _ => none) a = some w → after.Literal w u)
          args results := by
    rw [arguments]
    refine Brief.mapM ?_ args fun a member r'' now grown config' => ?_
    · exact fun a u before after more known w value => (known w value).mono more
    · obtain ⟨w, _, known⟩ := exists_of_forall₂ ready.flip member
      refine (brief_visit_ready (config'.trans (config.trans same))
        (Store.Ready.mono known grown)).imp (Nat.le_refl 1) fun u after _ literal z other => ?_
      obtain rfl : w = z := Option.some.inj ((Store.Ready.evaluate known _).symm.trans other)
      exact literal
  have total : (args.map fun _ => 1).sum + 0 ≤ 2 := by simpa using few
  apply Brief.mono _ total
  apply brief_rewriteWith visited
  intro results r'' now grown config' found
  have built' := built.mono grown
  refine brief_conclude_direct (config'.trans (config.trans same)) direct built'
    (Store.literals_of_values values found) ?_ value
  rw [← Store.sorts_of_values values]
  exact List.map_congr_left fun a member => grown.sortOf_eq (built.lt_of_mem a member)

/-- The rules, and the visit that they ask for, turn a term whose arguments have become literals
into the literal of its value. -/
theorem brief_conclude_application {old : List TermId} (same : r.config = {})
    (built : s.Built op old v.sort t) (literals : s.Literals vs args)
    (sorts : old.map s.sortOf = vs.map Scalar.sort) (value : op.operate vs = some v) :
    Brief context limit fuel 3 (do
      let t' ← (rebuild t args : Terms TermId)
      conclude (visit context limit fuel) t') r s fun u after => after.Literal v u := by
  apply Brief.build_bind (rebuild_applies built literals sorts value)
  intro u after _ applies
  apply brief_conclude
  rw [same]
  refine (reduce_settles applies).imp fun o last _ settles => ?_
  obtain gives | ⟨q, again, pending⟩ | ⟨failed, literal⟩ := settles
  · exact .inr (.inl gives)
  · refine .inr (.inr ⟨2, q, again, fun r' config => ?_⟩)
    exact brief_visit_pending config pending
  · exact .inl ⟨failed, literal⟩

end Visits

section Terms

variable {after : Store}

/-- The head of a term with a value is no constant, if constants have none. -/
theorem op_ne_var_of_ground (value : s.evaluate (fun _ => none) t = some v) (name : String) :
    s.op t ≠ .var name := by
  intro var
  rw [Store.evaluate_var var] at value
  cases value

/-- Well-sorted terms without constants in which no divisor is zero, which become the literals of
their values. -/
def ground : Fragment {} where
  Member s t := s.IsScalar t ∧ ∃ v, s.evaluate (fun _ => none) t = some v
  Result s t u := ∀ v, s.evaluate (fun _ => none) t = some v → s.Literal v u
  extra := 3
  inside := fun known => known.1.inside
  args := by
    rintro s t a ⟨known, v, value⟩ member
    obtain ⟨vs, values, _⟩ := (Store.evaluate_eq_some (op_ne_var_of_ground value)).mp value
    obtain ⟨w, _, found⟩ := exists_of_forall₂ values member
    exact ⟨known.of_mem_args member, w, found⟩
  mono := by
    rintro s after t ⟨known, v, value⟩ grown
    exact ⟨known.mono grown, v, (grown.evaluate_eq known.inside).trans value⟩
  back := by
    rintro s after t grown inside ⟨known, v, value⟩
    exact ⟨known.of_extends grown inside, v, (grown.evaluate_eq inside).symm.trans value⟩
  lasting := by
    rintro s after t u grown ⟨known, _⟩ result v value
    rw [grown.evaluate_eq known.inside] at value
    exact (result v value).mono grown
  concluded := by
    rintro context limit fuel r s t args same ⟨known, v, value⟩ results
    have other := op_ne_var_of_ground value
    obtain ⟨vs, values, applied, sort⟩ := (Store.evaluate_eq_some other).mp value
    have built : s.Built (s.op t) (s.args t) v.sort t :=
      ⟨known.inside, by rw [sort]; rfl, sort.trans (known.sort_of_application other).1⟩
    refine (brief_conclude_application same built (Store.literals_of_values values results)
      (Store.sorts_of_values values) applied).imp (Nat.le_refl 3) fun u after grown literal w => ?_
    rw [grown.evaluate_eq known.inside, value]
    rintro ⟨⟩
    exact literal

/-- Simplifying a well-sorted term without constants in which no divisor is zero gives the literal of
its value. -/
theorem simplify_ground (known : s.IsScalar t) (value : s.evaluate (fun _ => none) t = some v)
    (few : 4 * (t + 1) ≤ SimplifierConfig.maxSteps {}) :
    (Terms.simplify t).Ensures s fun result after => ∃ u, result = .ok u ∧ after.Literal v u := by
  have within : (simplifyWithin .unbounded ({} : Simplifier).config.maxSteps t).Ensures {} s
      (fun u _ after => after.Literal v u) fun _ _ _ => False := by
    apply (Fragment.simplifyWithin_member (F := ground) (.of_empty rfl rfl) ⟨known, v, value⟩).imp
    · intro u _ after grown result
      exact result v ((grown.evaluate_eq known.inside).trans value)
    · rintro e _ after _ ⟨_, exceeded⟩
      exact absurd few (Nat.not_le.mpr exceeded)
  have attempted : (Attempt.runFrom (simplify t) {}).Ensures s fun result after =>
      ∃ u, result.1 = .ok u ∧ after.Literal v u := by
    obtain ⟨u, r, after, run, literal⟩ := (simplify_ensures within).exists_ok
    unfold Terms.Ensures
    rw [run]
    exact ⟨u, rfl, literal⟩
  exact Terms.ensures_bind attempted fun _ _ _ found => Terms.ensures_pure found

end Terms

end Rewriting

end Stratagem
