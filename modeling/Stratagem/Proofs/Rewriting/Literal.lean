import Stratagem.Proofs.Rewriting.Equivalence

/-!
# Comparisons of literals

Equations of literals are decided by the literals and not by the numbers they stand for: two
literals are equal if they are one term. Inequalities are decided by the order of the numbers. The
answers agree as long as literals that stand for one number are one term.
-/
namespace Stratagem.Rewriting

open Terms Rule

variable {s : Store} {r : Simplifier} {limit fuel : ℕ} {t : TermId}

/-- A literal of the real sort, rational or not. -/
structure RealLiteral (s : Store) (a : TermId) (x : Numeral) : Prop where
  /-- The literal is in the store. -/
  inside : a < s.size
  /-- There are no arguments. -/
  args : s.args a = []
  /-- The sort is that of the reals. -/
  real : s.sortOf a = .real
  /-- The head is a numeral. -/
  numeral : s.exactNumeral? a = some x

namespace RealLiteral

variable {a : TermId} {x : Numeral}

/-- The head of a literal. -/
theorem op_cases (literal : RealLiteral s a x) :
    (∃ n, s.op a = .int n) ∨ (∃ q, s.op a = .real q) ∨ ∃ z, s.op a = .algebraic z := by
  have numeral := literal.numeral
  unfold Store.exactNumeral? at numeral
  split at numeral
  · next n head => exact .inl ⟨n, head⟩
  · next q head => exact .inr (.inl ⟨q, head⟩)
  · next z head => exact .inr (.inr ⟨z, head⟩)
  · cases numeral

/-- A literal has no arguments to simplify. -/
theorem atomic (literal : RealLiteral s a x) : Atomic s a := by
  refine ⟨literal.inside, ?_, literal.args⟩
  rcases literal.op_cases with ⟨_, head⟩ | ⟨_, head⟩ | ⟨_, head⟩ <;> rw [head] <;> rfl

/-- A literal is a value. -/
theorem isValue (literal : RealLiteral s a x) : s.isValue a = true := by
  unfold Store.isValue
  rcases literal.op_cases with ⟨_, head⟩ | ⟨_, head⟩ | ⟨_, head⟩ <;> rw [head] <;> rfl

/-- A literal stays one when the store grows. -/
theorem mono {after : Store} (literal : RealLiteral s a x) (grown : s.Extends after) :
    RealLiteral after a x where
  inside := grown.lt_size literal.inside
  args := (grown.args_eq literal.inside).trans literal.args
  real := (grown.sortOf_eq literal.inside).trans literal.real
  numeral := by
    rw [← literal.numeral, Store.exactNumeral?, Store.exactNumeral?, grown.op_eq literal.inside]

end RealLiteral

section Visits

/-- What a simplifier remembers about some terms is that they stay as they are. -/
def Keeps (terms : List TermId) (r : Simplifier) : Prop :=
  ∀ a ∈ terms, r.memo[a]? = none ∨ r.memo[a]? = some a

/-- A literal is left alone, remembered or not. -/
theorem visit_literal {terms : List TermId} (atomic : Atomic s t) (keeps : Keeps terms r)
    (member : t ∈ terms) (few : r.steps < limit) :
    (visit .unbounded limit (fuel + 1) none t).Ensures r s (fun u r' after => u = t ∧ after = s ∧
      r'.config = r.config ∧ r'.steps ≤ r.steps + 1 ∧ Keeps terms r') fun _ _ _ => False := by
  rcases keeps t member with new | old
  · refine visit_ensures nofun (fun _ => new) few atomic.inside ?_
    apply (rewriteWith_atom atomic).imp _ fun _ _ _ _ failure => failure
    rintro u _ after _ ⟨rfl, rfl, tally, rfl⟩
    refine ⟨rfl, rfl, rfl, Nat.le_refl _, fun k inside => ?_⟩
    show (r.memo.insert u u)[k]? = none ∨ (r.memo.insert u u)[k]? = some k
    rw [Std.HashMap.getElem?_insert]
    split
    · next same => exact .inr (congrArg some (eq_of_beq same))
    · exact keeps k inside
  · unfold visit
    rw [if_neg nofun]
    apply Attempt.ensures_modify_bind
    have found : (remembered none t).Ensures { r with visited := r.visited + 1 } s
        (fun found r' after => found = some t ∧ after = s ∧
          r' = { r with visited := r.visited + 1 }) fun _ _ _ => False := ⟨old, rfl, rfl⟩
    apply Attempt.ensures_bind found
    rintro _ _ s _ ⟨rfl, rfl, rfl⟩
    exact Attempt.ensures_modify_bind
      (Attempt.ensures_pure ⟨rfl, rfl, rfl, Nat.le_succ _, keeps⟩)

/-- Literals are left alone one after the other. -/
theorem visit_literals {all : List TermId} (terms : List TermId)
    (atomic : ∀ a ∈ terms, Atomic s a) (among : ∀ a ∈ terms, a ∈ all) (keeps : Keeps all r)
    (few : r.steps + terms.length ≤ limit) :
    (terms.mapM (visit .unbounded limit (fuel + 1) none)).Ensures r s
      (fun found r' after => found = terms ∧ after = s ∧ r'.config = r.config ∧
        r'.steps ≤ r.steps + terms.length) fun _ _ _ => False := by
  induction terms generalizing r with
  | nil => exact Attempt.ensures_pure ⟨rfl, rfl, rfl, Nat.le_refl _⟩
  | cons a rest tail =>
    obtain ⟨here, later⟩ := List.forall_mem_cons.mp atomic
    obtain ⟨member, others⟩ := List.forall_mem_cons.mp among
    rw [List.length_cons] at few
    rw [List.mapM_cons]
    apply Attempt.ensures_bind (visit_literal here keeps member (by omega))
    rintro a r' s _ ⟨rfl, rfl, config, steps, keeps⟩
    apply Attempt.ensures_bind (tail later others keeps (by omega))
    rintro rest r'' s _ ⟨rfl, rfl, config', steps'⟩
    have total : r''.steps ≤ r.steps + (rest.length + 1) := by omega
    exact Attempt.ensures_pure ⟨rfl, rfl, config'.trans config, total⟩

/-- What becomes of a term after the rules looked at it. -/
def conclude (visit : Option ℕ → TermId → Rewriting TermId) (t : TermId) : Rewriting TermId := do
  let outcome ← (runRule (reduce t) : StateT Simplifier Terms Outcome)
  countRule outcome
  match outcome with
  | .failed => return t
  | .done u => return u
  | .revisit again u => visit (some again) u
  | .revisitAll u => visit none u

/-- A rule that is done gives the result. -/
theorem conclude_done {visit : Option ℕ → TermId → Rewriting TermId} {good : TermId → Store → Prop}
    (ruled : (reduce t).Ensures r.config s fun o after => ∃ u, o = .done u ∧ good u after) :
    (conclude visit t).Ensures r s (fun u _ after => good u after) fun _ _ _ => False := by
  apply ensures_runRule_bind ruled
  rintro _ tally after _ ⟨u, rfl, holds⟩
  exact Attempt.ensures_modify_bind (Attempt.ensures_pure holds)

/-- Simplifying a term whose arguments are literals with a new simplifier. -/
theorem simplify_literals {good : TermId → Store → Prop} (inside : t < s.size)
    (atomic : ∀ a ∈ s.args t, Atomic s a) (few : (s.args t).length < limit)
    (concluded : ∀ r : Simplifier, r.config = {} → r.steps ≤ (s.args t).length + 1 →
      (conclude (visit .unbounded limit limit) t).Ensures r s (fun u _ after => good u after)
        fun _ _ _ => False) :
    (simplifyWithin .unbounded limit t).Ensures {} s (fun u _ after => good u after)
      fun _ _ _ => False := by
  obtain ⟨fuel, rfl⟩ := Nat.exists_eq_succ_of_ne_zero (Nat.ne_zero_of_lt few)
  apply Attempt.ensures_modify_bind
  refine visit_ensures nofun (fun _ => Std.HashMap.getElem?_empty) (Nat.succ_pos fuel) inside ?_
  unfold rewriteWith
  apply Attempt.ensures_read_bind
  have empty : Keeps (s.args t) ({ steps := 1, visited := 1 } : Simplifier) :=
    fun a _ => .inl Std.HashMap.getElem?_empty
  apply Attempt.ensures_bind (visit_literals (s.args t) atomic (fun _ => id) empty
    (by dsimp only; omega))
  rintro _ r s _ ⟨rfl, rfl, config, steps⟩
  apply Attempt.ensures_build_bind (rebuild_same rfl)
  rintro t s _ ⟨rfl, rfl⟩
  exact concluded r config (by dsimp only at steps; omega)

/-- Simplifying an application of constants and literals to which a rule applies that is done. -/
theorem simplify_leaves {op : Op} {args : List TermId} {sort : TermSort}
    {good : TermId → Store → Prop} (whole : s.nodes[t]? = some ⟨op, args, sort⟩)
    (atomic : ∀ a ∈ args, Atomic s a) (few : args.length < 100)
    (ruled : (reduce t).Ensures {} s fun o after => ∃ u, o = .done u ∧ good u after) :
    (simplify t).Ensures {} s (fun u _ after => good u after) fun _ _ _ => False := by
  obtain ⟨inside, node⟩ := Store.node_of_getElem? whole
  have same : s.args t = args := by rw [Store.args, node]
  refine simplify_ensures (simplify_literals inside (same ▸ atomic) ?_ ?_)
  · rw [same]
    exact few.trans (by decide)
  · intro r config _
    rw [← config] at ruled
    exact conclude_done ruled

end Visits

section Answers

variable {config : SimplifierConfig} {a b : TermId} {x y : Numeral} {sort : TermSort}

/-- The rules do what those for connectives do if these apply. -/
theorem reduce_of_connective {post : Outcome → Store → Prop}
    (applies : (Connective.reduce t).Ensures config s fun o after =>
      o.isFailed = false ∧ post o after) : (reduce t).Ensures config s post := by
  refine ensures_bind applies fun o after _ applied => ?_
  rw [if_neg (by simp [applied.1])]
  exact ensures_pure applied.2

/-- The rules decide an equation of literals of one sort by the terms. -/
theorem reduce_eq (whole : s.nodes[t]? = some ⟨.eq, [a, b], sort⟩) (left : s.isValue a = true)
    (right : s.isValue b = true) (sorts : s.sortOf a = s.sortOf b) :
    (reduce t).Ensures config s fun o after => o = .done (ofBool (decide (a = b))) ∧ after = s := by
  apply reduce_of_connective
  unfold Connective.reduce
  apply ensures_peek_bind
  rw [view_of_getElem? whole]
  dsimp only
  unfold Connective.reduceEq
  by_cases same : a = b
  · rw [if_pos same, decide_eq_true same]
    exact ensures_pure ⟨rfl, rfl, rfl⟩
  · rw [if_neg same, decide_eq_false same]
    apply ensures_peek_bind
    rw [left, right, sorts, beq_self_eq_true]
    exact ensures_pure ⟨rfl, rfl, rfl⟩

/-- The rules negate a truth value. -/
theorem reduce_not {p : Bool} (whole : s.nodes[t]? = some ⟨.not, [ofBool p], sort⟩) :
    (reduce t).Ensures config s fun o _ => o = .done (ofBool !p) := by
  apply reduce_of_connective
  unfold Connective.reduce
  apply ensures_peek_bind
  rw [view_of_getElem? whole]
  dsimp only
  unfold Connective.reduceNot
  have literal : s.view (ofBool p) = (.bool p, []) := by
    cases p with
    | true => exact view_of_getElem? s.startsTrue
    | false => exact view_of_getElem? s.thenFalse
  apply ensures_peek
  rw [literal]
  exact ⟨rfl, rfl⟩

/-- The rules write the difference of two terms as a negated equation. -/
theorem reduce_distinct_pair (whole : s.nodes[t]? = some ⟨.distinct, [a, b], sort⟩)
    (different : a ≠ b) (left : a < s.size) (right : b < s.size) :
    (reduce t).Ensures config s fun o after => ∃ e q, o = .revisit 2 q ∧
      after.nodes[e]? = some ⟨.eq, [a, b], .bool⟩ ∧
      after.nodes[q]? = some ⟨.not, [e], .bool⟩ := by
  apply reduce_of_connective
  unfold Connective.reduce
  apply ensures_peek_bind
  rw [view_of_getElem? whole]
  dsimp only
  unfold Connective.reduceDistinct
  rw [if_neg (by simp), if_neg (by simp [Connective.hasRepeat, different])]
  have equation : (mkEq a b).Ensures s fun e after =>
      after.nodes[e]? = some ⟨.eq, [a, b], .bool⟩ := mkApp_getElem? (by simp [left, right]) rfl
  refine ensures_bind (ensures_lift equation) fun e middle _ equation => ?_
  have inside := (Store.node_of_getElem? equation).1
  have negation : (mkNot e).Ensures middle fun q after =>
      after.nodes[q]? = some ⟨.not, [e], .bool⟩ := mkApp_getElem? (by simp [inside]) rfl
  refine ensures_bind (ensures_lift negation) fun q after grown negation => ?_
  exact ensures_pure ⟨rfl, e, q, rfl, grown _ _ equation, negation⟩

/-- The rules decide the pairwise difference of at most one, of repeated and of three or more
literals by the terms. -/
theorem reduce_distinct {args : List TermId} (whole : s.nodes[t]? = some ⟨.distinct, args, sort⟩)
    (literals : ∀ a ∈ args, s.isValue a = true) (other : args.length = 2 → ¬args.Nodup) :
    (reduce t).Ensures config s fun o after => o = .done (ofBool (decide args.Nodup)) ∧
      after = s := by
  apply reduce_of_connective
  unfold Connective.reduce
  apply ensures_peek_bind
  rw [view_of_getElem? whole]
  dsimp only
  unfold Connective.reduceDistinct
  split
  · next short =>
    have nodup : args.Nodup := List.nodup_iff_sublist.mpr fun a twice => by
      have := twice.length_le
      simp at this
      omega
    rw [decide_eq_true nodup]
    exact ensures_pure ⟨rfl, rfl, rfl⟩
  split
  · next repeated =>
    rw [decide_eq_false ((Connective.hasRepeat_iff args).mp repeated)]
    exact ensures_pure ⟨rfl, rfl, rfl⟩
  · next distinct =>
    have nodup : args.Nodup := by
      by_contra repeated
      exact distinct ((Connective.hasRepeat_iff args).mpr repeated)
    split
    · exact absurd nodup (other rfl)
    · apply ensures_peek_bind
      rw [if_pos (List.all_eq_true.mpr literals), decide_eq_true nodup]
      exact ensures_pure ⟨rfl, rfl, rfl⟩

/-- The value of a literal, and then a rule for it. -/
theorem ensures_literal_bind {next : Option Numeral → Rule Outcome}
    {post : Outcome → Store → Prop} (literal : RealLiteral s a x)
    (ensured : (next (some x)).Ensures {} s post) :
    (numeralValue? a >>= next).Ensures {} s post := by
  change (peek _ >>= next).Ensures {} s post
  refine ensures_peek_bind ?_
  rw [literal.numeral]
  cases x <;> exact ensured

/-- The rules decide an inequality of literals by the order of the numbers. -/
theorem reduce_comparison {relation : Relation} {order : Ordering} (strict : relation ≠ .eq)
    (whole : s.nodes[t]? = some ⟨relation.op, [a, b], sort⟩) (left : RealLiteral s a x)
    (right : RealLiteral s b y)
    (ordered : ((x.compare y).run { maxDegree := 64 } {}).1 = .ok order) :
    (reduce t).Ensures {} s fun o _ => o = .done (ofBool (relation.holds order)) := by
  have view := view_of_getElem? whole
  have silent : (Connective.reduce t).Ensures {} s fun o after => o = .failed ∧ after = s := by
    unfold Connective.reduce
    apply ensures_peek_bind
    rw [view]
    cases relation with
    | le => exact ensures_pure ⟨rfl, rfl⟩
    | ge => exact ensures_pure ⟨rfl, rfl⟩
    | eq => exact absurd rfl strict
  have compared : (Arithmetic.reduceComparison t relation a b).Ensures {} s fun o _ =>
      o.isFailed = false ∧ o = .done (ofBool (relation.holds order)) := by
    unfold Arithmetic.reduceComparison
    refine ensures_literal_bind left ?_
    refine ensures_literal_bind right ?_
    have evaluated : (evaluate? (x.compare y)).Ensures {} s fun found after =>
        found = some order ∧ after = s := by
      have computed : (compute (x.compare y)).Ensures {} s fun found after =>
          found = .ok order ∧ after = s := fun _ => ⟨ordered, rfl⟩
      refine ensures_bind computed ?_
      rintro _ _ _ ⟨rfl, rfl⟩
      exact ensures_pure ⟨rfl, rfl⟩
    refine ensures_bind evaluated ?_
    rintro _ _ _ ⟨rfl, rfl⟩
    exact ensures_modify_bind (ensures_pure ⟨rfl, rfl⟩)
  refine (reduce_of_arithmetic silent ?_).imp fun o _ _ result => result.2
  unfold Arithmetic.reduceHead
  apply ensures_peek_bind
  rw [view]
  cases relation with
  | le => exact compared
  | ge => exact compared
  | eq => exact absurd rfl strict

end Answers

section Negation

variable {a b : TermId} {x y : Numeral}

/-- Revisiting a negated equation of two literals. -/
theorem visit_negation {e q : TermId} (equation : s.nodes[e]? = some ⟨.eq, [a, b], .bool⟩)
    (whole : s.nodes[q]? = some ⟨.not, [e], .bool⟩) (left : RealLiteral s a x)
    (right : RealLiteral s b y) (few : r.steps + 2 ≤ limit) :
    (visit .unbounded limit (fuel + 3) (some 2) q).Ensures r s
      (fun u _ _ => u = ofBool !decide (a = b)) fun _ _ _ => False := by
  have outer := Store.node_of_getElem? whole
  have inner := Store.node_of_getElem? equation
  have args : s.args e = [a, b] := by rw [Store.args, inner.2]
  -- The equation is decided, and its sides are not visited at this depth.
  have visited : ∀ r : Simplifier, r.steps < limit →
      (visit .unbounded limit (fuel + 2) (some 1) e).Ensures r s
        (fun u _ after => u = ofBool (decide (a = b)) ∧ after = s) fun _ _ _ => False := by
    intro r few
    refine visit_ensures (by simp) (by simp) few inner.1 ?_
    unfold rewriteWith
    refine Attempt.ensures_read_bind ?_
    rw [args]
    have stopped : ∀ c (r : Simplifier), (visit .unbounded limit (fuel + 1) (some 0) c).Ensures r s
        (fun u _ after => u = c ∧ after = s) fun _ _ _ => False := fun c r => ⟨rfl, rfl⟩
    have both : ∀ r : Simplifier, ([a, b].mapM (visit .unbounded limit (fuel + 1) (some 0))).Ensures
        r s (fun found _ after => found = [a, b] ∧ after = s) fun _ _ _ => False := by
      intro r
      apply Attempt.ensures_mapM_pair (stopped a r)
      rintro _ r' s ⟨rfl, rfl⟩
      exact (visit_stop b).imp (fun _ _ _ _ same => ⟨by rw [same.1], same.2.2⟩)
        fun _ _ _ _ failure => failure
    refine Attempt.ensures_bind (both _) ?_
    rintro _ r' s _ ⟨rfl, rfl⟩
    refine Attempt.ensures_build_bind (rebuild_same args) ?_
    rintro e s _ ⟨rfl, rfl⟩
    refine ensures_runRule_bind (reduce_eq equation left.isValue right.isValue
      (left.real.trans right.real.symm)) ?_
    rintro _ tally s _ ⟨rfl, rfl⟩
    exact Attempt.ensures_modify_bind (Attempt.ensures_pure ⟨rfl, rfl⟩)
  refine visit_ensures (by simp) (by simp) (by omega) outer.1 ?_
  unfold rewriteWith
  refine Attempt.ensures_read_bind ?_
  rw [Store.args, outer.2]
  refine Attempt.ensures_bind (Attempt.ensures_mapM_single (visited _ (by dsimp only; omega))) ?_
  rintro _ r' s _ ⟨_, rfl, rfl, rfl⟩
  have rebuilt : (rebuild q [ofBool (decide (a = b))]).Ensures s fun u after =>
      after.nodes[u]? = some ⟨.not, [ofBool (decide (a = b))], .bool⟩ := by
    unfold rebuild
    refine Terms.ensures_read_bind ?_
    dsimp only
    rw [outer.2]
    split
    · next same =>
      have same : e = ofBool (decide (a = b)) := by simpa using same
      rw [← same]
      exact Terms.ensures_pure whole
    · have inside : ofBool (decide (a = b)) < s.size := by
        cases decide (a = b) with
        | true => exact s.node_trueId.1
        | false => exact s.node_falseId.1
      show (mkApp .not [ofBool (decide (a = b))]).Ensures s _
      exact mkApp_getElem? (by simpa using inside) rfl
  refine Attempt.ensures_build_bind rebuilt ?_
  intro u after _ negation
  exact conclude_done ((reduce_not negation).imp fun _ _ _ answer => ⟨_, answer, rfl⟩)

end Negation

section Results

variable {a b : TermId} {x y : Numeral} {u : TermId}

/-- The normal form of a term under the default configuration. -/
theorem simplify_default
    (ensured : (simplifyWithin .unbounded ({} : Simplifier).config.maxSteps t).Ensures {} s
      (fun u' _ _ => u' = u) fun _ _ _ => False) :
    (Terms.simplify t).Ensures s fun result _ => result = .ok u := by
  have attempted : (Attempt.runFrom (simplify t) {}).Ensures s fun result _ =>
      result.1 = .ok u := by
    obtain ⟨_, r, after, run, rfl⟩ := (simplify_ensures ensured).exists_ok
    unfold Terms.Ensures
    rw [run]
  exact Terms.ensures_bind attempted fun _ _ _ same => Terms.ensures_pure same

/-- Equations of literals are decided by the terms. -/
theorem simplify_eq (whole : s.nodes[t]? = some ⟨.eq, [a, b], .bool⟩) (left : RealLiteral s a x)
    (right : RealLiteral s b y) :
    (Terms.simplify t).Ensures s fun result _ => result = .ok (ofBool (decide (a = b))) := by
  obtain ⟨inside, node⟩ := Store.node_of_getElem? whole
  have args : s.args t = [a, b] := by rw [Store.args, node]
  apply simplify_default
  apply simplify_literals inside
  · rw [args]
    simp [left.atomic, right.atomic]
  · rw [args]
    show 2 < 18446744073709551615
    decide
  · intro r config _
    apply conclude_done
    exact (reduce_eq whole left.isValue right.isValue (left.real.trans right.real.symm)).imp
      fun _ _ _ result => ⟨_, result.1, rfl⟩

/-- Inequalities of literals are decided by the order of the numbers. -/
theorem simplify_comparison {relation : Relation} {order : Ordering} (strict : relation ≠ .eq)
    (whole : s.nodes[t]? = some ⟨relation.op, [a, b], .bool⟩) (left : RealLiteral s a x)
    (right : RealLiteral s b y)
    (ordered : ((x.compare y).run { maxDegree := 64 } {}).1 = .ok order) :
    (Terms.simplify t).Ensures s fun result _ => result = .ok (ofBool (relation.holds order)) := by
  obtain ⟨inside, node⟩ := Store.node_of_getElem? whole
  have args : s.args t = [a, b] := by rw [Store.args, node]
  apply simplify_default
  apply simplify_literals inside
  · rw [args]
    simp [left.atomic, right.atomic]
  · rw [args]
    show 2 < 18446744073709551615
    decide
  · intro r config _
    apply conclude_done
    rw [config]
    exact (reduce_comparison strict whole left right ordered).imp fun _ _ _ answer =>
      ⟨_, answer, rfl⟩

/-- Pairwise difference of literals is decided by the terms. -/
theorem simplify_distinct {terms : List TermId}
    (whole : s.nodes[t]? = some ⟨.distinct, terms, .bool⟩)
    (literals : ∀ a ∈ terms, ∃ x, RealLiteral s a x)
    (few : terms.length + 3 ≤ ({} : Simplifier).config.maxSteps) :
    (Terms.simplify t).Ensures s fun result _ => result = .ok (ofBool (decide terms.Nodup)) := by
  obtain ⟨inside, node⟩ := Store.node_of_getElem? whole
  have args : s.args t = terms := by rw [Store.args, node]
  apply simplify_default
  generalize ({} : Simplifier).config.maxSteps = limit at few
  apply simplify_literals inside
  · rw [args]
    intro a member
    obtain ⟨x, literal⟩ := literals a member
    exact literal.atomic
  · rw [args]
    omega
  · intro r config steps
    rw [args] at steps
    by_cases pair : terms.length = 2 ∧ terms.Nodup
    · -- Two different literals: the negated equation is revisited.
      obtain ⟨length, nodup⟩ := pair
      obtain ⟨a, b, rfl⟩ := List.length_eq_two.mp length
      have different : a ≠ b := by simpa using nodup
      obtain ⟨x, left⟩ := literals a (by simp)
      obtain ⟨y, right⟩ := literals b (by simp)
      obtain ⟨fuel, rfl⟩ : ∃ fuel, limit = fuel + 3 := ⟨limit - 3, by omega⟩
      rw [List.length_cons, List.length_singleton] at steps few
      have visited : ∀ (r : Simplifier) (after : Store) (e q : TermId), r.steps ≤ 3 →
          s.Extends after → after.nodes[e]? = some ⟨.eq, [a, b], .bool⟩ →
          after.nodes[q]? = some ⟨.not, [e], .bool⟩ →
          (visit .unbounded (fuel + 3) (fuel + 3) (some 2) q).Ensures r after
            (fun u _ _ => u = ofBool !decide (a = b)) fun _ _ _ => False := by
        intro r after e q few grown equation negation
        exact visit_negation equation negation (left.mono grown) (right.mono grown) (by omega)
      rw [decide_eq_true nodup]
      rw [decide_eq_false different] at visited
      refine ensures_runRule_bind
        (reduce_distinct_pair whole different left.inside right.inside) ?_
      rintro _ tally after grown ⟨e, q, rfl, equation, negation⟩
      exact Attempt.ensures_modify_bind (visited _ after e q steps grown equation negation)
    · apply conclude_done
      have other : terms.length = 2 → ¬terms.Nodup := fun two nodup => pair ⟨two, nodup⟩
      have values : ∀ a ∈ terms, s.isValue a = true := by
        intro a member
        obtain ⟨x, literal⟩ := literals a member
        exact literal.isValue
      exact (reduce_distinct whole values other).imp fun _ _ _ result => ⟨_, result.1, rfl⟩

end Results

/-- Where literals that stand for one number are one term, the simplifier decides equations and
pairwise differences of literals as the numbers are, in agreement with its answers to
inequalities. -/
theorem simplify_numerals {denote : TermId → ℝ} {terms : List TermId}
    (literals : ∀ a ∈ terms, ∃ x, RealLiteral s a x)
    (canonical : ∀ a ∈ terms, ∀ b ∈ terms, denote a = denote b → a = b)
    (few : terms.length + 3 ≤ ({} : Simplifier).config.maxSteps) :
    (∀ t, ∀ a ∈ terms, ∀ b ∈ terms, s.nodes[t]? = some ⟨.eq, [a, b], .bool⟩ →
      ∃ p : Bool, (p = true ↔ denote a = denote b) ∧
        (Terms.simplify t).Ensures s fun result _ => result = .ok (ofBool p)) ∧
    (∀ t, s.nodes[t]? = some ⟨.distinct, terms, .bool⟩ →
      ∃ p : Bool, (p = true ↔ terms.Pairwise (denote · ≠ denote ·)) ∧
        (Terms.simplify t).Ensures s fun result _ => result = .ok (ofBool p)) ∧
    ∀ t u, ∀ a ∈ terms, ∀ b ∈ terms, ∀ x y order, RealLiteral s a x → RealLiteral s b y →
      ((x.compare y).run { maxDegree := 64 } {}).1 = .ok order →
      s.nodes[t]? = some ⟨.le, [a, b], .bool⟩ → s.nodes[u]? = some ⟨.ge, [a, b], .bool⟩ →
      ∃ p q : Bool, ((p && q) = true ↔ order = .eq) ∧
        ((Terms.simplify t).Ensures s fun result _ => result = .ok (ofBool p)) ∧
        (Terms.simplify u).Ensures s fun result _ => result = .ok (ofBool q) := by
  refine ⟨?_, ?_, ?_⟩
  · intro t a left b right whole
    obtain ⟨x, first⟩ := literals a left
    obtain ⟨y, second⟩ := literals b right
    refine ⟨decide (a = b), ?_, simplify_eq whole first second⟩
    rw [decide_eq_true_iff]
    exact ⟨congrArg denote, canonical a left b right⟩
  · intro t whole
    refine ⟨decide terms.Nodup, ?_, simplify_distinct whole literals few⟩
    rw [decide_eq_true_iff]
    constructor
    · intro nodup
      exact nodup.imp_of_mem fun left right different same =>
        different (canonical _ left _ right same)
    · intro different
      exact different.imp fun apart same => apart (congrArg denote same)
  · intro t u a left b right x y order first second ordered below above
    refine ⟨Relation.le.holds order, Relation.ge.holds order, ?_, ?_, ?_⟩
    · cases order <;> simp [Relation.holds]
    · exact simplify_comparison (by decide) below first second ordered
    · exact simplify_comparison (by decide) above first second ordered

/-- A rational literal. -/
theorem realLiteral_of_getElem? {a : TermId} {q : ℚ}
    (found : s.nodes[a]? = some ⟨.real q, [], .real⟩) : RealLiteral s a (.rational q) := by
  obtain ⟨inside, node⟩ := Store.node_of_getElem? found
  refine ⟨inside, by rw [Store.args, node], by rw [Store.sortOf, node], ?_⟩
  rw [Store.exactNumeral?, Store.op, node]

/-- One and two are different. -/
theorem simplify_numerals_case : ∃ (s : Store) (a b t : TermId), s.op a = .real 1 ∧
    s.op b = .real 2 ∧ s.nodes[t]? = some ⟨.distinct, [a, b], .bool⟩ ∧
    (Terms.simplify t).Ensures s fun result _ => result = .ok Store.trueId := by
  have built : (do
      let a ← intern ⟨.real 1, [], .real⟩
      let b ← intern ⟨.real 2, [], .real⟩
      let t ← intern ⟨.distinct, [a, b], .bool⟩
      return (a, b, t) : Terms (TermId × TermId × TermId)).Ensures .initial fun found s =>
      s.nodes[found.1]? = some ⟨.real 1, [], .real⟩ ∧
        s.nodes[found.2.1]? = some ⟨.real 2, [], .real⟩ ∧
        s.nodes[found.2.2]? = some ⟨.distinct, [found.1, found.2.1], .bool⟩ := by
    refine Terms.ensures_bind (intern_getElem? nofun) fun a s₁ _ first => ?_
    refine Terms.ensures_bind (intern_getElem? nofun) fun b s₂ g₂ second => ?_
    have inside : ∀ c ∈ [a, b], c < s₂.size := by
      simp [(Store.node_of_getElem? (g₂ _ _ first)).1, (Store.node_of_getElem? second).1]
    refine Terms.ensures_bind (intern_getElem? inside) fun t s₃ g₃ whole => ?_
    exact Terms.ensures_pure ⟨g₃ _ _ (g₂ _ _ first), g₃ _ _ second, whole⟩
  obtain ⟨s, a, b, t, first, second, whole⟩ : ∃ (s : Store) (a b t : TermId),
      s.nodes[a]? = some ⟨.real 1, [], .real⟩ ∧ s.nodes[b]? = some ⟨.real 2, [], .real⟩ ∧
        s.nodes[t]? = some ⟨.distinct, [a, b], .bool⟩ := ⟨_, _, _, _, built⟩
  have left := Store.node_of_getElem? first
  have right := Store.node_of_getElem? second
  have different : a ≠ b := by
    rintro rfl
    simp [first] at second
  let denote : TermId → ℝ := fun c => if c = a then 1 else 2
  have literals : ∀ c ∈ [a, b], ∃ x, RealLiteral s c x := by
    simpa using ⟨⟨_, realLiteral_of_getElem? first⟩, ⟨_, realLiteral_of_getElem? second⟩⟩
  have canonical : ∀ c ∈ [a, b], ∀ d ∈ [a, b], denote c = denote d → c = d := by
    simp [denote, different, different.symm]
  have few : [a, b].length + 3 ≤ ({} : Simplifier).config.maxSteps := by
    show 5 ≤ 18446744073709551615
    decide
  obtain ⟨p, answer, result⟩ := (simplify_numerals literals canonical few).2.1 t whole
  have apart : [a, b].Pairwise (denote · ≠ denote ·) := by simp [denote, different.symm]
  rw [answer.mpr apart] at result
  exact ⟨s, a, b, t, by rw [Store.op, left.2], by rw [Store.op, right.2], whole, result⟩

end Stratagem.Rewriting
