import Stratagem.Proofs.Rewriting.Simplifier

/-!
# Simplified terms are equivalent

Whatever a simplifier did before, the result of simplifying a well-sorted term has the sort of the
term and under every assignment its value. Where sorts are mixed this fails: a difference or a case
distinction may be simplified to the part of the other sort.
-/
namespace Stratagem

open Terms Rule

/-- All constants, and casts of reals. -/
def Signature.full : Signature := ⟨fun _ _ => True, True⟩

/-- The simplifiers that there can be beside a store: a new one, and from there on by resetting it
and by simplifying any terms in any circumstances, while other computations add terms. -/
inductive Simplifier.Reachable : Simplifier → Store → Prop
  /-- A new simplifier. -/
  | start (config : SimplifierConfig) (s : Store) : Reachable { config } s
  /-- Terms are added. -/
  | grow {r : Simplifier} {s after : Store} (before : Reachable r s) (grown : s.Extends after) :
    Reachable r after
  /-- All results are forgotten. -/
  | reset {r : Simplifier} {s : Store} (before : Reachable r s) : Reachable r.reset s
  /-- A term is simplified, with success or not. -/
  | simplify {r r' : Simplifier} {s after : Store} {context : Context} {limit : ℕ} {t : TermId}
    {outcome : Except Error TermId} (before : Reachable r s)
    (run : ((Rewriting.simplifyWithin context limit t).runFrom r).run s = ((outcome, r'), after)) :
    Reachable r' after

/-- Every simplifier remembers replacements only. -/
theorem Simplifier.Reachable.sound {r : Simplifier} (reachable : r.Reachable s) : r.Sound s := by
  induction reachable with
  | start => exact sound_of_empty rfl
  | grow _ grown sound => exact sound.mono grown
  | reset => exact sound_of_empty rfl
  | @simplify r r' s after context limit t outcome _ run sound =>
    have ensured : (Rewriting.simplifyWithin context limit t).Ensures r s _ _ :=
      Rewriting.simplifyWithin_ensures sound
    unfold Attempt.Ensures Terms.Ensures at ensured
    rw [run] at ensured
    cases outcome with
    | ok => exact ensured.1
    | error => exact ensured


namespace Rewriting

variable {s : Store} {r : Simplifier} {context : Context} {limit fuel : ℕ} {t : TermId}

section Runs

/-- Rebuilding a term with its own arguments gives the term. -/
theorem rebuild_same {args : List TermId} (same : s.args t = args) :
    (rebuild t args).Ensures s fun u after => u = t ∧ after = s := by
  have same : (s.node t).args = args := same
  unfold rebuild
  refine Terms.ensures_read_bind ?_
  dsimp only
  rw [if_pos same]
  exact Terms.ensures_pure ⟨rfl, rfl⟩

/-- The simplifier after a term was visited. -/
def noted (depth : Option ℕ) (t u : TermId) (r : Simplifier) : Simplifier :=
  if depth.isNone then { r with memo := r.memo.insert t u } else r

/-- A visit of a term that is not remembered does what simplifying the term does, if nothing
interrupts it. -/
theorem visit_ensures {depth : Option ℕ} {good : TermId → Simplifier → Store → Prop}
    {bad : Error → Simplifier → Store → Prop} (deep : depth ≠ some 0)
    (new : depth = none → r.memo[t]? = none) (few : r.steps < limit) (inside : t < s.size)
    (ensured : (rewriteWith (visit .unbounded limit fuel) depth t).Ensures
      { r with visited := r.visited + 1, steps := r.steps + 1 } s
      (fun u r' after => good u (noted depth t u r') after) bad) :
    (visit .unbounded limit (fuel + 1) depth t).Ensures r s good bad := by
  unfold visit
  rw [if_neg deep]
  refine Attempt.ensures_modify_bind ?_
  have absent : (remembered depth t).Ensures { r with visited := r.visited + 1 } s
      (fun found r' after => found = none ∧ r' = { r with visited := r.visited + 1 } ∧ after = s)
      bad := by
    unfold remembered
    split
    · next complete =>
      exact ⟨new (Option.isNone_iff_eq_none.mp complete), rfl, rfl⟩
    · exact ⟨rfl, rfl, rfl⟩
  refine Attempt.ensures_bind absent ?_
  rintro _ _ s _ ⟨rfl, rfl, rfl⟩
  have stepped : (step .unbounded limit).Ensures { r with visited := r.visited + 1 } s
      (fun _ r' after => r' = { r with visited := r.visited + 1, steps := r.steps + 1 } ∧
        after = s) bad := by
    unfold step
    refine Attempt.ensures_modify_bind (Attempt.ensures_get_bind ?_)
    dsimp only
    rw [if_neg (by omega)]
    exact Attempt.ensures_read_bind ⟨rfl, rfl⟩
  refine Attempt.ensures_bind stepped ?_
  rintro _ _ s _ ⟨rfl, rfl⟩
  have found : (known t).Ensures { r with visited := r.visited + 1, steps := r.steps + 1 } s
      (fun _ r' after => r' = { r with visited := r.visited + 1, steps := r.steps + 1 } ∧
        after = s) bad := by
    unfold known
    refine Attempt.ensures_read_bind ?_
    rw [if_neg (Nat.not_le_of_lt inside)]
    exact Attempt.ensures_pure ⟨rfl, rfl⟩
  refine Attempt.ensures_bind found ?_
  rintro _ _ s _ ⟨rfl, rfl⟩
  refine Attempt.ensures_bind ensured fun u r' after _ result => ?_
  unfold remember
  unfold noted at result
  split
  · next complete =>
    rw [if_pos complete] at result
    exact Attempt.ensures_modify_bind (Attempt.ensures_pure result)
  · next partially =>
    rw [if_neg partially] at result
    exact Attempt.ensures_pure_bind (Attempt.ensures_pure result)

/-- What stays as it is when constants and literals are visited one after the other. -/
structure Passes (terms : List TermId) (s after : Store) (r r' : Simplifier) : Prop where
  /-- The store stays. -/
  store : after = s
  /-- The configuration stays. -/
  config : r'.config = r.config
  /-- Each takes one step. -/
  steps : r'.steps = r.steps + terms.length
  /-- Nothing about other terms is remembered. -/
  memo : ∀ k, k ∉ terms → r'.memo[k]? = r.memo[k]?

/-- A constant or a literal. -/
structure Atomic (s : Store) (t : TermId) : Prop where
  /-- The term is in the store. -/
  inside : t < s.size
  /-- The head is a constant or a literal. -/
  atom : (s.op t).isAtom
  /-- There are no arguments. -/
  args : s.args t = []

/-- No rule applies to a constant or a literal. -/
theorem rewriteWith_atom {visit : Option ℕ → TermId → Rewriting TermId} {depth : Option ℕ}
    (atomic : Atomic s t) : (rewriteWith visit depth t).Ensures r s
      (fun u r' after => u = t ∧ after = s ∧ ∃ tally, r' = { r with tally }) fun _ _ _ => False := by
  unfold rewriteWith
  refine Attempt.ensures_read_bind ?_
  rw [atomic.args]
  refine Attempt.ensures_pure_bind ?_
  refine Attempt.ensures_build_bind (rebuild_same atomic.args) ?_
  rintro t s _ ⟨rfl, rfl⟩
  have view := Store.view_eq_iff.mpr ⟨rfl, atomic.args⟩
  refine ensures_runRule_bind (reduce_atom view atomic.atom) ?_
  rintro _ tally s _ ⟨rfl, rfl⟩
  exact Attempt.ensures_pure_bind (Attempt.ensures_pure ⟨rfl, rfl, tally, rfl⟩)

/-- Constants and literals are left alone. -/
theorem visit_atom {depth : Option ℕ} (atomic : Atomic s t) (deep : depth ≠ some 0)
    (new : depth = none → r.memo[t]? = none) (few : r.steps < limit) :
    (visit .unbounded limit (fuel + 1) depth t).Ensures r s
      (fun u r' after => u = t ∧ Passes [t] s after r r') (fun _ _ _ => False) := by
  refine visit_ensures deep new few atomic.inside ?_
  refine (rewriteWith_atom atomic).imp ?_ fun _ _ _ _ failure => failure
  rintro u _ after _ ⟨rfl, rfl, tally, rfl⟩
  refine ⟨rfl, ?_⟩
  unfold noted
  split
  · refine ⟨rfl, rfl, rfl, fun k other => ?_⟩
    have other : ¬(u == k) = true := fun same => other (by simp [eq_of_beq same])
    rw [Std.HashMap.getElem?_insert, if_neg other]
  · exact ⟨rfl, rfl, rfl, fun k _ => rfl⟩

/-- Several constants and literals are left alone. -/
theorem visit_atoms {depth : Option ℕ} (terms : List TermId) (atomic : ∀ a ∈ terms, Atomic s a)
    (nodup : terms.Nodup) (deep : depth ≠ some 0)
    (new : depth = none → ∀ a ∈ terms, r.memo[a]? = none)
    (few : r.steps + terms.length ≤ limit) :
    (terms.mapM (visit .unbounded limit (fuel + 1) depth)).Ensures r s
      (fun found r' after => found = terms ∧ Passes terms s after r r') (fun _ _ _ => False) := by
  induction terms generalizing r with
  | nil => exact Attempt.ensures_pure ⟨rfl, rfl, rfl, rfl, fun _ _ => rfl⟩
  | cons a rest tail =>
    obtain ⟨here, later⟩ := List.forall_mem_cons.mp atomic
    obtain ⟨apart, distinct⟩ := List.nodup_cons.mp nodup
    rw [List.length_cons] at few
    rw [List.mapM_cons]
    refine Attempt.ensures_bind (visit_atom here deep (fun none => new none a (by simp))
      (by omega)) ?_
    rintro a r' s _ ⟨rfl, rfl, config, steps, memo⟩
    rw [List.length_singleton] at steps
    refine Attempt.ensures_bind (tail later distinct (fun none b member => ?_) (by omega)) ?_
    · have other : b ∉ [a] := by
        rw [List.mem_singleton]
        rintro rfl
        exact apart member
      rw [memo b other]
      exact new none b (by simp [member])
    · rintro _ r'' _ _ ⟨rfl, rfl, config', steps', memo'⟩
      refine Attempt.ensures_pure ⟨rfl, rfl, config'.trans config, ?_, fun k other => ?_⟩
      · rw [steps', steps, List.length_cons]
        omega
      · rw [List.mem_cons, not_or] at other
        rw [memo' k other.2, memo k (by simpa using other.1)]

/-- Simplifying a term is limited by the configuration only. -/
theorem simplify_ensures {good : TermId → Simplifier → Store → Prop}
    {bad : Error → Simplifier → Store → Prop}
    (ensured : (simplifyWithin .unbounded r.config.maxSteps t).Ensures r s good bad) :
    (simplify t).Ensures r s good bad := Attempt.ensures_get_bind ensured

/-- Nothing is done at depth zero. -/
theorem visit_stop (t : TermId) : (visit context limit (fuel + 1) (some 0) t).Ensures r s
    (fun u r' after => u = t ∧ r' = r ∧ after = s) (fun _ _ _ => False) := ⟨rfl, rfl, rfl⟩

end Runs

section Mixed

variable {x z p q m w : TermId} {name : String}

/-- The view of a term whose node is known. -/
theorem view_of_getElem? {node : Node} (found : s.nodes[t]? = some node) :
    s.view t = (node.op, node.args) := by
  obtain ⟨_, same⟩ := Store.node_of_getElem? found
  rw [Store.view, same]

/-- The head of a term whose node is known. -/
theorem op_of_getElem? {op : Op} {args : List TermId} {sort : TermSort}
    (found : s.nodes[t]? = some ⟨op, args, sort⟩) : s.op t = op := by
  rw [Store.op, (Store.node_of_getElem? found).2]

/-- The arguments of a term whose node is known. -/
theorem args_of_getElem? {op : Op} {args : List TermId} {sort : TermSort}
    (found : s.nodes[t]? = some ⟨op, args, sort⟩) : s.args t = args := by
  rw [Store.args, (Store.node_of_getElem? found).2]

/-- The sort of a term whose node is known. -/
theorem sortOf_of_getElem? {op : Op} {args : List TermId} {sort : TermSort}
    (found : s.nodes[t]? = some ⟨op, args, sort⟩) : s.sortOf t = sort := by
  rw [Store.sortOf, (Store.node_of_getElem? found).2]

/-- A term without arguments whose head is a constant or a literal. -/
theorem atomic_of_getElem? {op : Op} {sort : TermSort} (found : s.nodes[t]? = some ⟨op, [], sort⟩)
    (atom : op.isAtom) : Atomic s t := by
  obtain ⟨inside, same⟩ := Store.node_of_getElem? found
  exact ⟨inside, by rwa [Store.op, same], by rw [Store.args, same]⟩

/-- The node of an application. -/
theorem mkApp_getElem? {op : Op} {args : List TermId} {sort : TermSort}
    (inside : ∀ a ∈ args, a < s.size) (same : s.inferSort op args = sort) :
    (mkApp op args).Ensures s fun t after => after.nodes[t]? = some ⟨op, args, sort⟩ :=
  (mkApp_node inside).imp fun t after _ found => by
    rw [← same, ← found.2]
    exact Store.getElem?_eq_node found.1

/-- A literal of the real sort is well-sorted and has its value. -/
theorem value_of_real {r : ℚ} (found : s.nodes[t]? = some ⟨.real r, [], .real⟩) :
    s.WellSorted ⟨fun _ _ => True, True⟩ t ∧ s.numeral? t = some r := by
  obtain ⟨inside, node⟩ := Store.node_of_getElem? found
  refine ⟨.intro inside ?_ ?_, ?_⟩
  · rw [Store.op, Store.args, Store.sortOf, node]
    exact rfl
  · rw [Store.args, node]
    simp
  · rw [Store.numeral?, Store.op, node]

/-- The difference of an integer and a real zero, as a sum. -/
theorem reduce_difference (first : s.nodes[x]? = some ⟨.var name, [], .int⟩)
    (zero : s.nodes[z]? = some ⟨.real 0, [], .real⟩)
    (whole : s.nodes[t]? = some ⟨.sub, [x, z], .real⟩) :
    (reduce t).Ensures {} s fun o after => o.isFailed = false ∧ ∃ q p m, o = .revisit 2 q ∧
      after.nodes[m]? = some ⟨.real (-1), [], .real⟩ ∧
      after.nodes[p]? = some ⟨.mul, [m, z], .real⟩ ∧
      after.nodes[q]? = some ⟨.add, [x, p], .real⟩ := by
  have view := view_of_getElem? whole
  have head := Store.node_of_getElem? whole
  refine reduce_of_arithmetic ?_ ?_
  · unfold Connective.reduce
    refine ensures_peek_bind ?_
    rw [view]
    exact ensures_pure ⟨rfl, rfl⟩
  · unfold Arithmetic.reduceHead Arithmetic.reduceSub
    refine ensures_peek_bind ?_
    rw [view]
    refine ensures_peek_bind ?_
    have real : s.isInt t = false := by rw [Store.isInt, Store.sortOf, head.2]; rfl
    rw [real]
    have one : (mkNumeral (-1) false).Ensures s fun m after =>
        after.nodes[m]? = some ⟨.real (-1), [], .real⟩ := intern_getElem? (by simp)
    refine ensures_bind (ensures_lift one) fun m s₁ grown₁ one => ?_
    have zero := Store.node_of_getElem? (grown₁ _ _ zero)
    have minus := Store.node_of_getElem? one
    have product : (mkMul [m, z]).Ensures s₁ fun p after =>
        after.nodes[p]? = some ⟨.mul, [m, z], .real⟩ := by
      show (mkApp .mul [m, z]).Ensures s₁ _
      refine mkApp_getElem? ?_ ?_
      · simp [zero.1, minus.1]
      · simp [Store.inferSort, Store.arithJoin, Store.isInt, Store.sortOf, minus.2, zero.2]
    refine ensures_bind (ensures_lift product) fun p s₂ grown₂ product => ?_
    have first := Store.node_of_getElem? (grown₂ _ _ (grown₁ _ _ first))
    have second := Store.node_of_getElem? product
    have sum : (mkAdd [x, p]).Ensures s₂ fun q after =>
        after.nodes[q]? = some ⟨.add, [x, p], .real⟩ := by
      show (mkApp .add [x, p]).Ensures s₂ _
      refine mkApp_getElem? ?_ ?_
      · simp [first.1, second.1]
      · simp [Store.inferSort, Store.arithJoin, Store.isInt, Store.sortOf, first.2, second.2]
    refine ensures_bind (ensures_lift sum) fun q s₃ grown₃ sum => ensures_pure ?_
    exact ⟨rfl, q, p, m, rfl, grown₃ _ _ (grown₂ _ _ one), grown₃ _ _ product, sum⟩

/-- A product with a real zero is zero. -/
theorem reduce_zeroProduct (one : s.nodes[m]? = some ⟨.real (-1), [], .real⟩)
    (zero : s.nodes[z]? = some ⟨.real 0, [], .real⟩)
    (whole : s.nodes[p]? = some ⟨.mul, [m, z], .real⟩) :
    (reduce p).Ensures {} s fun o after => o.isFailed = false ∧ ∃ w, o = .done w ∧
      after.nodes[w]? = some ⟨.real 0, [], .real⟩ := by
  have view := view_of_getElem? whole
  have head := Store.node_of_getElem? whole
  have minus := Store.node_of_getElem? one
  have nil := Store.node_of_getElem? zero
  refine reduce_of_arithmetic ?_ ?_
  · unfold Connective.reduce
    refine ensures_peek_bind ?_
    rw [view]
    exact ensures_pure ⟨rfl, rfl⟩
  · unfold Arithmetic.reduceHead Arithmetic.reduceMul
    refine ensures_peek_bind ?_
    rw [view]
    refine ensures_peek_bind ?_
    have real : s.isInt p = false := by rw [Store.isInt, Store.sortOf, head.2]; rfl
    rw [real]
    refine ensures_peek_bind ?_
    have factors : s.factors [m, z] = [m, z] := by
      simp [Store.factors, Store.flattenTo, Store.op, minus.2, nil.2]
    rw [factors]
    have gathered : (Arithmetic.gatherProduct false [m, z] (.rational 1) []).Ensures {} s
        fun found after => ∃ w, found = .error (.done w) ∧
          after.nodes[w]? = some ⟨.real 0, [], .real⟩ := by
      obtain ⟨sorted, literal⟩ := value_of_real one
      unfold Arithmetic.gatherProduct
      refine ensures_numeralValue?_bind sorted ?_
      rw [literal]
      refine ensures_evaluate?_bind ?_
      obtain ⟨sorted, literal⟩ := value_of_real zero
      unfold Arithmetic.gatherProduct
      refine ensures_numeralValue?_bind sorted ?_
      rw [literal]
      have nil : (mkNumeral 0 false).Ensures s fun w after =>
          after.nodes[w]? = some ⟨.real 0, [], .real⟩ := intern_getElem? (by simp)
      exact ensures_bind (ensures_lift nil) fun w after _ nil => ensures_pure ⟨w, rfl, nil⟩
    refine ensures_bind gathered ?_
    rintro _ after _ ⟨w, rfl, nil⟩
    exact ensures_pure ⟨rfl, w, rfl, nil⟩

/-- The sum of an integer and a real zero is the integer. -/
theorem reduce_zeroSum (first : s.nodes[x]? = some ⟨.var name, [], .int⟩)
    (zero : s.nodes[w]? = some ⟨.real 0, [], .real⟩)
    (whole : s.nodes[q]? = some ⟨.add, [x, w], .real⟩) :
    (reduce q).Ensures {} s fun o _ => o.isFailed = false ∧ o = .done x := by
  have view := view_of_getElem? whole
  have head := Store.node_of_getElem? whole
  have first := Store.node_of_getElem? first
  have nil := Store.node_of_getElem? zero
  refine reduce_of_arithmetic ?_ ?_
  · unfold Connective.reduce
    refine ensures_peek_bind ?_
    rw [view]
    exact ensures_pure ⟨rfl, rfl⟩
  · unfold Arithmetic.reduceHead Arithmetic.reduceAdd
    refine ensures_peek_bind ?_
    rw [view]
    refine ensures_peek_bind (ensures_peek_bind ?_)
    have real : s.isInt q = false := by rw [Store.isInt, Store.sortOf, head.2]; rfl
    rw [real]
    have summands : [x, w].flatMap s.summands = [x, w] := by
      simp [Store.summands, Store.flattenTo, Store.op, first.2, nil.2]
    rw [summands]
    have gathered : (Arithmetic.gatherSum [x, w] none {}).Ensures {} s fun found after =>
        found = some (some (.rational 0), ({} : Monomials).add 1 [x]) ∧ after = s := by
      have sorted : s.WellSorted ⟨fun _ _ => True, True⟩ x := by
        refine .intro first.1 ?_ ?_
        · rw [Store.op, Store.args, Store.sortOf, first.2]
          exact ⟨trivial, .inr rfl⟩
        · rw [Store.args, first.2]
          simp
      unfold Arithmetic.gatherSum
      refine ensures_numeralValue?_bind sorted ?_
      have none : s.numeral? x = none := by rw [Store.numeral?, Store.op, first.2]
      rw [none]
      refine ensures_peek_bind ?_
      have monomial : s.monomial x = ⟨1, [x]⟩ := by rw [Store.monomial, Store.view, first.2]
      rw [monomial]
      obtain ⟨sorted, literal⟩ := value_of_real zero
      unfold Arithmetic.gatherSum
      refine ensures_numeralValue?_bind sorted ?_
      rw [literal]
      exact ensures_pure ⟨rfl, rfl⟩
    refine ensures_bind gathered ?_
    rintro _ after _ ⟨rfl, rfl⟩
    refine ensures_read_bind ?_
    have kept : (({} : Monomials).add 1 [x]).retainNonzero.toList = [⟨1, [x]⟩] := by
      rw [Monomials.toList_retainNonzero,
        Monomials.toList_add_of_unknown Monomials.coeff?_empty]
      rfl
    have single : (Arithmetic.mkMonomials [⟨1, [x]⟩] false).Ensures {} after fun terms _ =>
        terms = [x] := by
      unfold Arithmetic.mkMonomials Arithmetic.mkMonomial
      rw [List.mapM_cons]
      exact ensures_pure_bind (ensures_pure rfl)
    simp only [Bool.false_eq_true, ↓reduceIte]
    rw [kept]
    refine ensures_pure_bind (ensures_bind single fun terms last _ shape => ?_)
    rw [shape]
    split
    · next same => simp at same
    · exact ensures_pure_bind (ensures_pure ⟨rfl, rfl⟩)


/-- The sum of an integer constant and the negation of a real zero is simplified to the constant,
also when only two levels are visited. -/
theorem visit_sum (first : s.nodes[x]? = some ⟨.var name, [], .int⟩)
    (zero : s.nodes[z]? = some ⟨.real 0, [], .real⟩)
    (one : s.nodes[m]? = some ⟨.real (-1), [], .real⟩)
    (product : s.nodes[p]? = some ⟨.mul, [m, z], .real⟩)
    (whole : s.nodes[q]? = some ⟨.add, [x, p], .real⟩) (default : r.config = {})
    (few : r.steps + 3 ≤ limit) :
    (visit .unbounded limit (fuel + 3) (some 2) q).Ensures r s (fun u _ _ => u = x)
      (fun _ _ _ => False) := by
  have node := Store.node_of_getElem? whole
  have factors := Store.node_of_getElem? product
  refine visit_ensures (by simp) (by simp) (by omega) node.1 ?_
  unfold rewriteWith
  refine Attempt.ensures_read_bind ?_
  have args : s.args q = [x, p] := by rw [Store.args, node.2]
  rw [args]
  have visited : ([x, p].mapM (visit .unbounded limit (fuel + 2) (some 1))).Ensures
      { r with visited := r.visited + 1, steps := r.steps + 1 } s
      (fun found r' after => ∃ w, found = [x, w] ∧ r'.config = {} ∧
        after.nodes[w]? = some ⟨.real 0, [], .real⟩) (fun _ _ _ => False) := by
    refine Attempt.ensures_mapM_pair (visit_atom (atomic_of_getElem? first rfl) (by simp) (by simp)
      (by dsimp only; omega)) ?_
    rintro _ r' s ⟨rfl, rfl, config, steps, _⟩
    rw [List.length_singleton] at steps
    refine visit_ensures (by simp) (by simp) (by rw [steps]; dsimp only; omega) factors.1 ?_
    unfold rewriteWith
    refine Attempt.ensures_read_bind ?_
    have args : s.args p = [m, z] := by rw [Store.args, factors.2]
    rw [args]
    have stopped : ([m, z].mapM (visit .unbounded limit (fuel + 1) (some 0))).Ensures
        { r' with visited := r'.visited + 1, steps := r'.steps + 1 } s
        (fun found r'' after => found = [m, z] ∧ r''.config = {} ∧ after = s)
        (fun _ _ _ => False) := by
      refine Attempt.ensures_mapM_pair (visit_stop m) ?_
      rintro _ r'' s ⟨rfl, rfl, rfl⟩
      refine (visit_stop z).imp ?_ fun _ _ _ _ => id
      rintro _ _ _ _ ⟨rfl, rfl, rfl⟩
      exact ⟨rfl, config.trans default, rfl⟩
    refine Attempt.ensures_bind stopped ?_
    rintro _ r'' s _ ⟨rfl, config, rfl⟩
    refine Attempt.ensures_build_bind (rebuild_same args) ?_
    rintro _ s _ ⟨rfl, rfl⟩
    have ruled := reduce_zeroProduct one zero product
    rw [← config] at ruled
    refine ensures_runRule_bind ruled ?_
    rintro _ tally after _ ⟨_, w, rfl, zero⟩
    exact Attempt.ensures_modify_bind (Attempt.ensures_pure ⟨w, rfl, config, zero⟩)
  refine Attempt.ensures_bind visited ?_
  rintro _ r' after grown ⟨w, rfl, config, zero⟩
  have rebuilt : (rebuild q [x, w]).Ensures after fun u last =>
      last.nodes[u]? = some ⟨.add, [x, w], .real⟩ := by
    have sum := Store.node_of_getElem? (grown _ _ whole)
    have first := Store.node_of_getElem? (grown _ _ first)
    have nil := Store.node_of_getElem? zero
    unfold rebuild
    refine Terms.ensures_read_bind ?_
    dsimp only
    rw [sum.2]
    split
    · next same =>
      obtain rfl : p = w := by simpa using same
      have product := grown _ _ product
      simp [product] at zero
    · show (mkApp .add [x, w]).Ensures after _
      refine mkApp_getElem? ?_ ?_
      · simp [first.1, nil.1]
      · simp [Store.inferSort, Store.arithJoin, Store.isInt, Store.sortOf, first.2, nil.2]
  refine Attempt.ensures_build_bind rebuilt fun u last more rebuilt => ?_
  have ruled := reduce_zeroSum (more _ _ (grown _ _ first)) (more _ _ zero) rebuilt
  rw [← config] at ruled
  refine ensures_runRule_bind ruled ?_
  rintro _ tally final _ ⟨_, rfl⟩
  exact Attempt.ensures_modify_bind (Attempt.ensures_pure rfl)

/-- The difference of an integer constant and a real zero is simplified to the constant. -/
theorem simplify_sub (first : s.nodes[x]? = some ⟨.var name, [], .int⟩)
    (zero : s.nodes[z]? = some ⟨.real 0, [], .real⟩)
    (whole : s.nodes[t]? = some ⟨.sub, [x, z], .real⟩) (few : 6 ≤ limit) :
    (simplifyWithin .unbounded limit t).Ensures {} s (fun u _ _ => u = x) (fun _ _ _ => False) := by
  have distinct : x ≠ z := by
    rintro rfl
    simp [first] at zero
  have node := Store.node_of_getElem? whole
  have args : s.args t = [x, z] := by rw [Store.args, node.2]
  obtain ⟨limit, rfl⟩ : ∃ n, limit = n + 3 := ⟨limit - 3, by omega⟩
  unfold simplifyWithin
  refine Attempt.ensures_modify_bind ?_
  refine visit_ensures (by simp) (fun _ => by simp) (by dsimp only; omega) node.1 ?_
  unfold rewriteWith
  refine Attempt.ensures_read_bind ?_
  rw [args]
  have visited : ([x, z].mapM (visit .unbounded (limit + 3) (limit + 3) none)).Ensures
      ({ steps := 1, visited := 1 } : Simplifier) s
      (fun found r' after => found = [x, z] ∧ after = s ∧ r'.config = {} ∧ r'.steps = 3)
      (fun _ _ _ => False) := by
    have atomic : ∀ a ∈ [x, z], Atomic s a := by
      simpa using ⟨atomic_of_getElem? first rfl, atomic_of_getElem? zero rfl⟩
    have none : (none : Option ℕ) ≠ some 0 := by simp
    refine (visit_atoms [x, z] atomic (by simp [distinct]) none (by simp) (by simp)).imp ?_
      fun _ _ _ _ => id
    rintro _ r' _ _ ⟨rfl, rfl, config, steps, _⟩
    exact ⟨rfl, rfl, config, steps⟩
  refine Attempt.ensures_bind visited ?_
  rintro _ r' s _ ⟨rfl, rfl, config, steps⟩
  refine Attempt.ensures_build_bind (rebuild_same args) ?_
  rintro _ s _ ⟨rfl, rfl⟩
  have ruled := reduce_difference first zero whole
  rw [← config] at ruled
  refine ensures_runRule_bind ruled ?_
  rintro _ tally after grown ⟨_, q, p, m, rfl, one, product, sum⟩
  refine Attempt.ensures_modify_bind ?_
  exact visit_sum (grown _ _ first) (grown _ _ zero) one product sum config
    (by dsimp only; omega)

/-- A case distinction on `false` between two literals is simplified to the second one. -/
theorem simplify_ite {a b : TermId} {yes no : Op} {sort first second : TermSort}
    (left : s.nodes[a]? = some ⟨yes, [], first⟩) (right : s.nodes[b]? = some ⟨no, [], second⟩)
    (whole : s.nodes[t]? = some ⟨.ite, [Store.falseId, a, b], sort⟩) (atoms : yes.isAtom ∧ no.isAtom)
    (distinct : yes ≠ no ∧ yes ≠ .bool false ∧ no ≠ .bool false) (few : 4 ≤ limit) :
    (simplifyWithin .unbounded limit t).Ensures {} s (fun u _ after => u = b ∧ after = s)
      (fun _ _ _ => False) := by
  have node := Store.node_of_getElem? whole
  have args : s.args t = [Store.falseId, a, b] := by rw [Store.args, node.2]
  obtain ⟨limit, rfl⟩ : ∃ n, limit = n + 1 := ⟨limit - 1, by omega⟩
  refine Attempt.ensures_modify_bind ?_
  refine visit_ensures (by simp) (fun _ => by simp) (by dsimp only; omega) node.1 ?_
  unfold rewriteWith
  refine Attempt.ensures_read_bind ?_
  rw [args]
  have atomic : ∀ c ∈ [Store.falseId, a, b], Atomic s c := by
    simpa using ⟨atomic_of_getElem? s.thenFalse rfl, atomic_of_getElem? left atoms.1,
      atomic_of_getElem? right atoms.2⟩
  have none : (none : Option ℕ) ≠ some 0 := by simp
  have nodup : [Store.falseId, a, b].Nodup := by
    have false : s.nodes[Store.falseId]? = some ⟨.bool false, [], .bool⟩ := s.thenFalse
    simp only [List.nodup_cons, List.mem_cons, List.not_mem_nil, or_false, not_or]
    refine ⟨⟨?_, ?_⟩, ?_, by simp⟩
    · rintro rfl
      simp_all
    · rintro rfl
      simp_all
    · rintro rfl
      simp_all
  refine Attempt.ensures_bind (visit_atoms _ atomic nodup none (by simp) (by simp; omega)) ?_
  rintro _ r' s _ ⟨rfl, rfl, config, _⟩
  refine Attempt.ensures_build_bind (rebuild_same args) ?_
  rintro t s _ ⟨rfl, rfl⟩
  have ruled : (reduce t).Ensures r'.config s fun o after => o = .done b ∧ after = s := by
    have connective : (Connective.reduce t).Ensures r'.config s fun o after =>
        o = .done b ∧ after = s := by
      unfold Connective.reduce
      refine ensures_peek_bind ?_
      rw [view_of_getElem? whole]
      exact ensures_pure ⟨rfl, rfl⟩
    refine ensures_bind connective ?_
    rintro _ _ _ ⟨rfl, rfl⟩
    exact ensures_pure ⟨rfl, rfl⟩
  refine ensures_runRule_bind ruled ?_
  rintro _ tally s _ ⟨rfl, rfl⟩
  exact Attempt.ensures_modify_bind (Attempt.ensures_pure ⟨rfl, rfl⟩)

/-- A case distinction between two literals. -/
def caseOfLiterals (yes no : Terms TermId) : Terms TermId := do
  let a ← yes
  let b ← no
  mkIte Store.falseId a b

/-- The difference of an integer constant and a real zero. -/
def mixedDifference : Terms TermId := do
  let x ← mkVar "x" .int
  let z ← mkReal 0
  mkApp .sub [x, z]

/-- The nodes of a case distinction between two literals. -/
theorem caseOfLiterals_getElem? {yes no : Terms TermId} {one zero : Op} {sort other : TermSort}
    (first : yes.Ensures .initial fun a after => after.nodes[a]? = some ⟨one, [], sort⟩)
    (second : ∀ s, no.Ensures s fun b after => after.nodes[b]? = some ⟨zero, [], other⟩) :
    (caseOfLiterals yes no).Ensures .initial fun t s => ∃ a b,
      s.nodes[a]? = some ⟨one, [], sort⟩ ∧ s.nodes[b]? = some ⟨zero, [], other⟩ ∧
      s.nodes[t]? = some ⟨.ite, [Store.falseId, a, b], sort⟩ := by
  refine Terms.ensures_bind first fun a s _ left => ?_
  refine Terms.ensures_bind (second s) fun b s grown right => ?_
  have left := grown _ _ left
  have leftNode := Store.node_of_getElem? left
  have rightNode := Store.node_of_getElem? right
  refine (mkApp_getElem? ?_ ?_).imp fun t s more whole =>
    ⟨a, b, more _ _ left, more _ _ right, whole⟩
  · simpa using ⟨s.node_falseId.1, leftNode.1, rightNode.1⟩
  · rw [Store.inferSort, List.drop_one, List.tail_cons, Store.headSort, Store.sortOf, leftNode.2]

/-- The nodes of the difference. -/
theorem mixedDifference_getElem? : mixedDifference.Ensures .initial fun t s => ∃ x z,
    s.nodes[x]? = some ⟨.var "x", [], .int⟩ ∧ s.nodes[z]? = some ⟨.real 0, [], .real⟩ ∧
    s.nodes[t]? = some ⟨.sub, [x, z], .real⟩ := by
  refine Terms.ensures_bind (Terms.ensures_bind_of_all fun _ s _ => intern_getElem? nofun)
    fun x s _ first => ?_
  refine Terms.ensures_bind (intern_getElem? nofun) fun z s grown zero => ?_
  have first := grown _ _ first
  have firstNode := Store.node_of_getElem? first
  have zeroNode := Store.node_of_getElem? zero
  refine (mkApp_getElem? ?_ ?_).imp fun t s more whole =>
    ⟨x, z, more _ _ first, more _ _ zero, whole⟩
  · simpa using ⟨firstNode.1, zeroNode.1⟩
  · simp [Store.inferSort, Store.arithJoin, Store.isInt, Store.sortOf, firstNode.2, zeroNode.2]

end Mixed
end Rewriting

/-- The result of simplifying a well-sorted term has its sort and under every assignment its
value, whatever the simplifier did before. -/
theorem Rewriting.simplify_equivalent {s after : Store} {r r' : Simplifier} {t u : TermId}
    (reachable : r.Reachable s) (sorted : s.WellSorted .full t)
    (run : ((simplify t).runFrom r).run s = ((.ok u, r'), after)) :
    after.sortOf u = s.sortOf t ∧ ∀ I, after.value I u = s.value I t := by
  have ensured : (simplify t).Ensures r s _ _ :=
    simplify_ensures (simplifyWithin_ensures reachable.sound)
  have replaces := (ensured.of_ok run).2 .full sorted
  have grown : s.Extends after := by
    have grows := ((simplify t).runFrom r).grows s
    rwa [run] at grows
  refine ⟨?_, fun I => ?_⟩
  · rw [replaces.sort_eq, grown.sortOf_eq sorted.inside]
  · rw [replaces.value_eq, grown.value_eq I sorted.inside]

/-- Simplifying a case distinction between integers. -/
theorem Rewriting.simplify_equivalent_case :
    let work := caseOfLiterals (mkInt 1) (mkInt 0)
    ∃ u r' after, ((simplify (work.run .initial).1).runFrom {}).run (work.run .initial).2 =
        ((.ok u, r'), after) ∧
      after.sortOf u = (work.run .initial).2.sortOf (work.run .initial).1 ∧
      ∀ I, after.value I u = (work.run .initial).2.value I (work.run .initial).1 := by
  intro work
  have nodes : work.Ensures .initial _ :=
    caseOfLiterals_getElem? (intern_getElem? (by simp)) fun s => intern_getElem? (by simp)
  obtain ⟨a, b, left, right, whole⟩ := nodes
  generalize (work.run .initial).1 = t at whole ⊢
  generalize (work.run .initial).2 = s at left right whole ⊢
  have ensured : (simplify t).Ensures {} s _ _ :=
    simplify_ensures (simplify_ite left right whole (by decide) (by simp) (by decide))
  obtain ⟨u, r', after, run, rfl, rfl⟩ := ensured.exists_ok
  refine ⟨u, r', after, run, simplify_equivalent (.start {} after) ?_ run⟩
  have leaf : ∀ {c : TermId} {n : ℤ}, after.nodes[c]? = some ⟨.int n, [], .int⟩ →
      after.WellSorted .full c ∧ after.sortOf c = .int := by
    intro c n found
    obtain ⟨inside, node⟩ := Store.node_of_getElem? found
    refine ⟨.intro inside ?_ ?_, by rw [Store.sortOf, node]⟩
    · rw [Store.op, Store.args, Store.sortOf, node]
      exact rfl
    · rw [Store.args, node]
      simp
  have condition := formula_falseId (Γ := .full) (I := ⟨fun _ => True, fun _ => 0, fun _ => 0⟩) after
  obtain ⟨inside, node⟩ := Store.node_of_getElem? whole
  refine .intro inside ?_ ?_
  · rw [Store.op, Store.args, Store.sortOf, node]
    exact ⟨condition.sort_eq, (leaf left).2, (leaf right).2⟩
  · rw [Store.args, node]
    simpa using ⟨condition.sorted, (leaf left).1, (leaf right).1⟩

/-- Where integers and reals are mixed, simplifying a term may change its sort. -/
theorem Rewriting.simplify_mixed :
    [mixedDifference, caseOfLiterals (mkInt 1) (mkReal 0)].Forall fun work =>
    ∃ u r' after, ((simplify (work.run .initial).1).runFrom {}).run (work.run .initial).2 =
        ((.ok u, r'), after) ∧
      after.sortOf u ≠ (work.run .initial).2.sortOf (work.run .initial).1 := by
  rw [List.forall_iff_forall_mem]
  intro work member
  simp only [List.mem_cons, List.not_mem_nil, or_false] at member
  obtain rfl | rfl := member
  · obtain ⟨x, z, first, zero, whole⟩ := mixedDifference_getElem?
    generalize (mixedDifference.run .initial).1 = t at whole ⊢
    generalize (mixedDifference.run .initial).2 = s at first zero whole ⊢
    have ensured : (simplify t).Ensures {} s _ _ :=
      simplify_ensures (simplify_sub first zero whole (by decide))
    obtain ⟨u, r', after, run, rfl⟩ := ensured.exists_ok
    have grown : s.Extends after := by
      have grows := ((simplify t).runFrom {}).grows s
      rwa [run] at grows
    refine ⟨u, r', after, run, ?_⟩
    have before := Store.node_of_getElem? first
    rw [grown.sortOf_eq before.1, Store.sortOf, Store.sortOf, before.2,
      (Store.node_of_getElem? whole).2]
    simp
  · have nodes : (caseOfLiterals (mkInt 1) (mkReal 0)).Ensures .initial _ :=
      caseOfLiterals_getElem? (intern_getElem? (by simp)) fun s => intern_getElem? (by simp)
    obtain ⟨a, b, left, right, whole⟩ := nodes
    generalize ((caseOfLiterals (mkInt 1) (mkReal 0)).run .initial).1 = t at whole ⊢
    generalize ((caseOfLiterals (mkInt 1) (mkReal 0)).run .initial).2 = s at left right whole ⊢
    have ensured : (simplify t).Ensures {} s _ _ :=
      simplify_ensures (simplify_ite left right whole (by decide) (by simp) (by decide))
    obtain ⟨u, r', after, run, rfl, rfl⟩ := ensured.exists_ok
    refine ⟨u, r', after, run, ?_⟩
    rw [Store.sortOf, Store.sortOf, (Store.node_of_getElem? whole).2,
      (Store.node_of_getElem? right).2]
    simp

end Stratagem
