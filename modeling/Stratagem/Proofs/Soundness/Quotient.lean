import Stratagem.Proofs.Soundness.Preservation

/-!
# Quotients

What a quotient by zero is, is left open. A quotient of two products with literals becomes a product
of two quotients, one of the literals and one of the other factors. This keeps the value unless the
divisor is zero; then the quotient by zero of another dividend is multiplied by a literal. So a term
keeps its value if all its quotients are known (`Store.QuotientKnown`), and may change it otherwise.
-/
namespace Stratagem

open Terms Rule

namespace Store

variable {J : Valuation} {s : Store} {t : TermId}

/-- Where there are neither irrational literals nor negative exponents, a term is defined if its
quotients are known. -/
theorem definedBy_of_quotients (within : s.Within (.arithmetic False) t)
    (known : s.Throughout (fun a => ∀ b c, s.view a = (.div, [b, c]) → s.QuotientKnown J b c) t) :
    s.DefinedBy J t := by
  refine (within.and known).imp fun a here => ?_
  obtain ⟨⟨_, admits⟩, quotients⟩ := here
  refine ⟨fun b c head arguments => quotients b c (view_eq_iff.mpr ⟨head, arguments⟩),
    fun b e head arguments => ?_, fun b _ => ?_⟩
  · obtain ⟨one, _⟩ | ⟨r, literal, fits⟩ := admits.power b e head arguments
    · intro r _
      have value := meaning_of_numeral? (J := J) (isOne_iff.mp one)
      simp [value]
    · intro q literal'
      obtain rfl := Option.some.inj (literal.symm.trans literal')
      have integral : Rational.isIntegral r := by
        by_contra fraction
        exact fits.fraction fraction
      have whole : r.den = 1 := by simpa [Rational.isIntegral] using integral
      exact ⟨fun even => absurd (whole ▸ even) (by decide), fun negative =>
        (fits.negative negative).2.elim⟩
  · have rational : ¬(s.op a).function?.isSome := admits.function
    revert rational
    cases s.op a <;> simp [Op.function?, Op.InDomain]

end Store

namespace Rewriting

section Result

variable {s after : Store} {r r' : Simplifier} {t u : TermId}

end Result

section Products

variable {s : Store} {r : Simplifier} {limit fuel : ℕ} {t p q c d k e x y : TermId} {v w : ℚ}
  {config : SimplifierConfig} {name other : String}

/-- A literal of the real sort that is in the store is not built again. -/
theorem mkReal_of_getElem? (found : s.nodes[c]? = some ⟨.real v, [], .real⟩) :
    (mkReal v).Ensures s fun a after => a = c ∧ after = s := by
  have there : s.table[(⟨.real v, [], .real⟩ : Node)]? = some c := (s.exact _ _).mpr found
  unfold Terms.Ensures mkReal intern
  dsimp only
  split
  · next a known => exact ⟨Option.some.inj (known.symm.trans there), rfl⟩
  · next absent => cases absent.symm.trans there

/-- No rule applies to a product or a quotient to which no rule for numbers applies. -/
theorem reduce_of_head_failed {op : Op} {a b : TermId} (view : s.view t = (op, [a, b]))
    (numeric : op = .mul ∨ op = .div)
    (failed : (Arithmetic.reduceHead t).Ensures config s fun o after => o = .failed ∧ after = s) :
    (reduce t).Ensures config s fun o after => o = .failed ∧ after = s := by
  have silent : (Connective.reduce t).Ensures config s fun o after => o = .failed ∧ after = s :=
    connective_silent view (by obtain rfl | rfl := numeric <;> rfl)
  have bits : (BitVector.reduce t).Ensures config s fun o after => o = .failed ∧ after = s := by
    unfold BitVector.reduce
    refine ensures_peek_bind ?_
    rw [view]
    obtain rfl | rfl := numeric
    all_goals
      refine ensures_peek_bind (ensures_peek_bind ?_)
      cases s.bitVec? a <;> cases s.bitVec? b <;> exact ensures_pure ⟨rfl, rfl⟩
  refine ensures_bind silent ?_
  rintro _ s _ ⟨rfl, rfl⟩
  refine ensures_bind (Arithmetic.reduce_ensures failed) ?_
  rintro _ s _ ⟨rfl, rfl⟩
  refine ensures_bind bits ?_
  rintro _ s _ ⟨rfl, rfl⟩
  exact ensures_pure ⟨rfl, rfl⟩

/-- A product of a literal other than zero and one and a factor that is neither a literal nor a sum
nor a product. -/
structure Scaled (s : Store) (v : ℚ) (c x t : TermId) : Prop where
  /-- The product. -/
  node : s.nodes[t]? = some ⟨.mul, [c, x], .real⟩
  /-- The literal. -/
  literal : s.nodes[c]? = some ⟨.real v, [], .real⟩
  /-- The literal is neither zero nor one. -/
  proper : v ≠ 0 ∧ v ≠ 1
  /-- The other factor is no literal. -/
  plain : s.exactNumeral? x = none
  /-- The other factor is neither a sum nor a product. -/
  flat : s.op x ≠ .add ∧ s.op x ≠ .mul

namespace Scaled

/-- The head of the literal. -/
theorem op_literal (scaled : Scaled s v c x t) : s.op c = .real v := by
  rw [Store.op, (Store.node_of_getElem? scaled.literal).2]

/-- The literal and the other factor are the factors. -/
theorem factors (scaled : Scaled s v c x t) : s.factors [c, x] = [c, x] := by
  have plain := scaled.flat.2
  simp [Store.factors, Store.flattenTo, scaled.op_literal, plain]

/-- The literal and the other factor are gathered. -/
theorem gatherProduct_ensures (scaled : Scaled s v c x t) :
    (Arithmetic.gatherProduct false [c, x] (.rational 1) []).Ensures config s fun found after =>
      found = .ok (.rational v, [x]) ∧ after = s := by
  have literal : s.exactNumeral? c = some (.rational v) := by
    rw [Store.exactNumeral?, scaled.op_literal]
  unfold Arithmetic.gatherProduct
  refine ensures_rational_bind (some v) literal ?_
  have nonzero : (Numeral.rational v).isZero = false := by
    simpa [Numeral.isZero] using scaled.proper.1
  dsimp only [Option.map_some]
  rw [nonzero, if_neg (by simp)]
  have product : (Numeral.rational 1).mul (.rational v) = pure (.rational v) := by
    rw [Numeral.mul, nonzero]
    simp [Numeral.isZero]
  rw [product]
  refine ensures_evaluate?_bind ?_
  unfold Arithmetic.gatherProduct
  refine ensures_rational_bind none scaled.plain ?_
  unfold Arithmetic.gatherProduct
  exact ensures_pure ⟨rfl, rfl⟩

/-- Such a product stays one when the store grows. -/
theorem mono {after : Store} (scaled : Scaled s v c x t) (grown : s.Extends after) :
    Scaled after v c x t := by
  have inside : x < s.size := by
    have node := Store.node_of_getElem? scaled.node
    refine (Store.lt_of_mem_args (s := s) (t := t) ?_).trans node.1
    simp [Store.args, node.2]
  refine ⟨grown _ _ scaled.node, grown _ _ scaled.literal, scaled.proper, ?_, ?_⟩
  · rw [Store.exactNumeral?, grown.op_eq inside]
    exact scaled.plain
  · rw [grown.op_eq inside]
    exact scaled.flat

/-- No rule applies. -/
theorem reduce_failed (scaled : Scaled s v c x t) :
    (reduce t).Ensures {} s fun o after => o = .failed ∧ after = s := by
  have view := view_of_getElem? scaled.node
  have whole := Store.node_of_getElem? scaled.node
  refine reduce_of_head_failed view (.inl rfl) ?_
  unfold Arithmetic.reduceHead Arithmetic.reduceMul
  refine ensures_peek_bind ?_
  rw [view]
  refine ensures_peek_bind ?_
  have real : s.isInt t = false := by rw [Store.isInt, Store.sortOf, whole.2]; rfl
  rw [real]
  refine ensures_peek_bind ?_
  rw [scaled.factors]
  refine ensures_bind scaled.gatherProduct_ensures ?_
  rintro _ s _ ⟨rfl, rfl⟩
  refine ensures_read_bind (ensures_pure_bind (ensures_peek_bind (ensures_read_bind ?_)))
  have single : Arithmetic.ascending [x] = [x] := by simp [Arithmetic.ascending]
  have scale : ((Numeral.rational v).asRational? == some 1) = false := by
    simpa [Numeral.asRational?] using scaled.proper.2
  dsimp only
  rw [single, scale, if_neg (by simp)]
  refine ensures_peek_bind ?_
  have product : (Arithmetic.mkProduct (.rational v) [x] [c, x] false).Ensures {} s
      fun o after => o = .failed ∧ after = s := by
    unfold Arithmetic.mkProduct
    have lead : ((fun a => [a]) <$> mkNumber (.rational v) false : Rule (List TermId)).Ensures {} s
        fun found after => found = [c] ∧ after = s := by
      rw [map_eq_pure_bind]
      refine ensures_bind (ensures_lift (mkReal_of_getElem? scaled.literal)) ?_
      rintro _ s _ ⟨rfl, rfl⟩
      exact ensures_pure ⟨rfl, rfl⟩
    rw [if_neg (by simpa [Numeral.asRational?] using scaled.proper.2)]
    refine ensures_bind lead ?_
    rintro _ s _ ⟨rfl, rfl⟩
    dsimp only
    rw [if_pos (by simp)]
    exact ensures_pure ⟨rfl, rfl⟩
  split
  · next sum => exact absurd (Store.view_eq_iff.mp sum).1 scaled.flat.1
  · exact product

/-- Visiting such a product of a constant leaves it alone. -/
theorem visit_ensures {name : String} (scaled : Scaled s v c x t)
    (constant : s.nodes[x]? = some ⟨.var name, [], .real⟩) (default : r.config = {})
    (new : ∀ a ∈ [t, c, x], r.memo[a]? = none) (few : r.steps + 3 ≤ limit) :
    (visit .unbounded limit (fuel + 2) none t).Ensures r s
      (fun u r' after => u = t ∧ Passes [t, c, x] s after r r') fun _ _ _ => False := by
  have whole := Store.node_of_getElem? scaled.node
  have args : s.args t = [c, x] := by rw [Store.args, whole.2]
  have atomic : ∀ a ∈ [c, x], Atomic s a := by
    simpa using ⟨atomic_of_getElem? scaled.literal rfl, atomic_of_getElem? constant rfl⟩
  have nodup : [c, x].Nodup := by
    have other : c ≠ x := by
      rintro rfl
      cases scaled.literal.symm.trans constant
    simp [other]
  refine Rewriting.visit_ensures (by simp) (fun _ => new t (by simp)) (by omega) whole.1 ?_
  refine Attempt.ensures_read_bind ?_
  rw [args]
  refine Attempt.ensures_bind (visit_atoms [c, x] atomic nodup (by simp [below])
    (fun _ a member => new a (List.mem_cons_of_mem _ member)) (by simpa using few)) ?_
  rintro _ r' s _ ⟨rfl, rfl, config, steps, memo⟩
  refine Attempt.ensures_build_bind (rebuild_same args) ?_
  rintro t s _ ⟨rfl, rfl⟩
  have ruled := scaled.reduce_failed
  rw [← config.trans default] at ruled
  refine ensures_runRule_bind ruled ?_
  rintro _ tally s _ ⟨rfl, rfl⟩
  refine Attempt.ensures_pure_bind (Attempt.ensures_pure ⟨rfl, rfl, config, ?_, fun k other => ?_⟩)
  · show r'.steps = r.steps + 3
    rw [steps]
    simp
  · rw [List.mem_cons, not_or] at other
    show (r'.memo.insert t t)[k]? = r.memo[k]?
    rw [Std.HashMap.getElem?_insert, if_neg (by simpa using Ne.symm other.1)]
    exact memo k other.2

end Scaled

/-- A quotient of two such products becomes a product of the quotients of the literals and of the
other factors. -/
theorem reduce_scaledQuotient (whole : s.nodes[t]? = some ⟨.div, [p, q], .real⟩)
    (first : Scaled s v c x p) (second : Scaled s w d y q) :
    (reduce t).Ensures {} s fun o after => o.isFailed = false ∧ ∃ k e m, o = .revisit 2 m ∧
      after.nodes[k]? = some ⟨.real (v / w), [], .real⟩ ∧
      after.nodes[e]? = some ⟨.div, [x, y], .real⟩ ∧
      after.nodes[m]? = some ⟨.mul, [k, e], .real⟩ := by
  have view := view_of_getElem? whole
  refine reduce_of_arithmetic (connective_silent view rfl) ?_
  have product {u a b : TermId} {sort : TermSort} (node : s.nodes[u]? = some ⟨.mul, [a, b], sort⟩) :
      s.exactNumeral? u = none := by
    rw [Store.exactNumeral?, Store.op, (Store.node_of_getElem? node).2]
  unfold Arithmetic.reduceHead Arithmetic.reduceDiv
  refine ensures_peek_bind ?_
  rw [view]
  refine ensures_rational_bind none (product second.node) ?_
  unfold Arithmetic.divideProducts
  have split {u a b : TermId} {r : ℚ} (scaled : Scaled s r a b u) :
      Arithmetic.scaledFactor? s u = some (r, b) := by
    rw [Arithmetic.scaledFactor?, view_of_getElem? scaled.node]
    simp [Store.numeral?, scaled.op_literal]
  refine ensures_peek_bind (ensures_peek_bind ?_)
  rw [split first, split second]
  dsimp only [Option.map_none]
  rw [if_neg second.proper.1]
  have inside : ∀ a ∈ [x, y], a < s.size := by
    have left := Store.lt_of_mem_args (s := s) (t := p) (a := x)
    have right := Store.lt_of_mem_args (s := s) (t := q) (a := y)
    have numerator := Store.node_of_getElem? first.node
    have denominator := Store.node_of_getElem? second.node
    simp only [Store.args, numerator.2, denominator.2] at left right
    simpa using ⟨(left (by simp)).trans numerator.1, (right (by simp)).trans denominator.1⟩
  refine ensures_bind (ensures_lift (intern_getElem? (by simp))) fun k s₁ grown₁ literal => ?_
  have inside : ∀ a ∈ [x, y], a < s₁.size := fun a member => grown₁.lt_size (inside a member)
  refine ensures_bind (ensures_lift (mkApp_getElem? inside rfl)) fun e s₂ grown₂ quotient => ?_
  have lead := Store.node_of_getElem? (grown₂ _ _ literal)
  have rest := Store.node_of_getElem? quotient
  have real : s₂.inferSort .mul [k, e] = .real := by
    simp [Store.inferSort, Store.arithJoin, Store.isInt, Store.sortOf, lead.2, rest.2]
  have both : ∀ a ∈ [k, e], a < s₂.size := by simpa using ⟨lead.1, rest.1⟩
  refine ensures_bind (ensures_lift (mkApp_getElem? both real)) fun m s₃ grown₃ built => ?_
  exact ensures_pure
    ⟨rfl, k, e, m, rfl, grown₃ _ _ (grown₂ _ _ literal), grown₃ _ _ quotient, built⟩

/-- No rule applies to a quotient of two constants. -/
theorem reduce_plainQuotient (whole : s.nodes[t]? = some ⟨.div, [x, y], .real⟩)
    (first : s.nodes[x]? = some ⟨.var name, [], .real⟩)
    (second : s.nodes[y]? = some ⟨.var other, [], .real⟩) :
    (reduce t).Ensures {} s fun o after => o = .failed ∧ after = s := by
  have view := view_of_getElem? whole
  refine reduce_of_head_failed view (.inr rfl) ?_
  unfold Arithmetic.reduceHead Arithmetic.reduceDiv
  refine ensures_peek_bind ?_
  rw [view]
  have symbol : s.exactNumeral? y = none := by
    rw [Store.exactNumeral?, Store.op, (Store.node_of_getElem? second).2]
  refine ensures_rational_bind none symbol ?_
  unfold Arithmetic.divideProducts
  have plain : Arithmetic.scaledFactor? s x = none := by
    rw [Arithmetic.scaledFactor?, view_of_getElem? first]
  refine ensures_peek_bind (ensures_peek_bind ?_)
  rw [plain]
  exact ensures_pure ⟨rfl, rfl⟩

/-- A multiple of a quotient of two constants is left alone when it is visited again. -/
theorem visit_scaledQuotient (scaled : Scaled s v k e t)
    (quotient : s.nodes[e]? = some ⟨.div, [x, y], .real⟩)
    (left : s.nodes[x]? = some ⟨.var name, [], .real⟩)
    (right : s.nodes[y]? = some ⟨.var other, [], .real⟩) (default : r.config = {})
    (few : r.steps + 3 ≤ limit) :
    (visit .unbounded limit (fuel + 3) (some 2) t).Ensures r s
      (fun u _ after => u = t ∧ after = s) fun _ _ _ => False := by
  have inner := Store.node_of_getElem? quotient
  have outer := Store.node_of_getElem? scaled.node
  have innerArgs : s.args e = [x, y] := by rw [Store.args, inner.2]
  have outerArgs : s.args t = [k, e] := by rw [Store.args, outer.2]
  have divided (r : Simplifier) (default : r.config = {}) (few : r.steps < limit) :
      (visit .unbounded limit (fuel + 2) (some 1) e).Ensures r s
        (fun u r' after => u = e ∧ r'.config = {} ∧ after = s) fun _ _ _ => False := by
    refine visit_ensures (by simp) (by simp) few inner.1 ?_
    refine Attempt.ensures_read_bind ?_
    rw [innerArgs]
    have stopped (r : Simplifier) (s : Store) :
        ([x, y].mapM (visit .unbounded limit (fuel + 1) (some 0))).Ensures r s
          (fun found r' after => found = [x, y] ∧ r' = r ∧ after = s) fun _ _ _ => False := by
      refine Attempt.ensures_mapM_pair (visit_stop x) ?_
      rintro _ r s ⟨rfl, rfl, rfl⟩
      refine (visit_stop y).imp ?_ fun _ _ _ _ => id
      rintro _ _ _ _ ⟨rfl, rfl, rfl⟩
      exact ⟨rfl, rfl, rfl⟩
    refine Attempt.ensures_bind (stopped _ s) ?_
    rintro _ r' s _ ⟨rfl, rfl, rfl⟩
    refine Attempt.ensures_build_bind (rebuild_same innerArgs) ?_
    rintro e s _ ⟨rfl, rfl⟩
    have ruled := reduce_plainQuotient quotient left right
    rw [← default] at ruled
    refine ensures_runRule_bind ruled ?_
    rintro _ tally s _ ⟨rfl, rfl⟩
    exact Attempt.ensures_pure_bind (Attempt.ensures_pure ⟨rfl, default, rfl⟩)
  refine visit_ensures (by simp) (by simp) (by omega) outer.1 ?_
  refine Attempt.ensures_read_bind ?_
  rw [outerArgs]
  have visited : ([k, e].mapM (visit .unbounded limit (fuel + 2) (some 1))).Ensures
      { r with visited := r.visited + 1, steps := r.steps + 1 } s
      (fun found r' after => found = [k, e] ∧ r'.config = {} ∧ after = s) fun _ _ _ => False := by
    refine Attempt.ensures_mapM_pair (visit_atom (atomic_of_getElem? scaled.literal rfl) (by simp)
      (by simp) (by dsimp only; omega)) ?_
    rintro k r' s ⟨rfl, rfl, config, steps, _⟩
    refine (divided r' (config.trans default) (by rw [steps]; simp; omega)).imp ?_
      fun _ _ _ _ => id
    rintro _ _ _ _ ⟨rfl, config, rfl⟩
    exact ⟨rfl, config, rfl⟩
  refine Attempt.ensures_bind visited ?_
  rintro _ r' s _ ⟨rfl, config, rfl⟩
  refine Attempt.ensures_build_bind (rebuild_same outerArgs) ?_
  rintro t s _ ⟨rfl, rfl⟩
  have ruled := scaled.reduce_failed
  rw [← config] at ruled
  refine ensures_runRule_bind ruled ?_
  rintro _ tally s _ ⟨rfl, rfl⟩
  exact Attempt.ensures_pure_bind (Attempt.ensures_pure ⟨rfl, rfl⟩)

/-- Two such products of different literals and constants are left alone. -/
theorem visit_scaledPair (first : Scaled s v c x p) (second : Scaled s w d y q) (different : v ≠ w)
    (left : s.nodes[x]? = some ⟨.var name, [], .real⟩)
    (right : s.nodes[y]? = some ⟨.var other, [], .real⟩) (names : name ≠ other)
    (default : r.config = {}) (new : ∀ a : TermId, r.memo[a]? = none) (few : r.steps + 6 ≤ limit) :
    ([p, q].mapM (visit .unbounded limit (fuel + 2) none)).Ensures r s
      (fun found r' after => found = [p, q] ∧ after = s ∧ r'.config = {} ∧ r'.steps = r.steps + 6)
      fun _ _ _ => False := by
  have apart {a b : TermId} {m n : Node} (one : s.nodes[a]? = some m) (two : s.nodes[b]? = some n)
      (unequal : m ≠ n) : a ≠ b := by
    rintro rfl
    exact unequal (Option.some.inj (one.symm.trans two))
  have literals : c ≠ d := apart first.literal second.literal (by simpa using different)
  -- No part of one product is a part of the other one.
  have disjoint : ∀ a ∈ [q, d, y], a ∉ [p, c, x] := by
    simp only [List.mem_cons, List.not_mem_nil, or_false, not_or]
    rintro a (rfl | rfl | rfl)
    · exact ⟨apart second.node first.node (by simp [literals.symm]),
        apart second.node first.literal (by simp), apart second.node left (by simp)⟩
    · exact ⟨apart second.literal first.node (by simp), literals.symm,
        apart second.literal left (by simp)⟩
    · exact ⟨apart right first.node (by simp), apart right first.literal (by simp),
        apart right left (by simpa using names.symm)⟩
  refine Attempt.ensures_mapM_pair
    (first.visit_ensures left default (fun a _ => new a) (by omega)) ?_
  rintro _ r' s ⟨rfl, rfl, config, steps, memo⟩
  have steps : r'.steps = r.steps + 3 := steps
  have fresh : ∀ a ∈ [q, d, y], r'.memo[a]? = none := fun a member =>
    (memo a (disjoint a member)).trans (new a)
  refine (second.visit_ensures right (config.trans default) fresh (by omega)).imp ?_
    fun _ _ _ _ => id
  rintro _ r'' _ _ ⟨rfl, rfl, config', steps', _⟩
  have steps' : r''.steps = r'.steps + 3 := steps'
  exact ⟨rfl, rfl, config'.trans (config.trans default), by omega⟩

/-- The quotient of a multiple of one constant and a multiple of another one becomes a multiple of
the quotient of the constants. -/
theorem simplify_scaledQuotient (whole : s.nodes[t]? = some ⟨.div, [p, q], .real⟩)
    (first : Scaled s v c x p) (second : Scaled s w d y q) (different : v ≠ w)
    (left : s.nodes[x]? = some ⟨.var name, [], .real⟩)
    (right : s.nodes[y]? = some ⟨.var other, [], .real⟩) (names : name ≠ other)
    (few : 12 ≤ limit) :
    (simplifyWithin .unbounded limit t).Ensures {} s (fun u _ after => ∃ k e,
      after.nodes[k]? = some ⟨.real (v / w), [], .real⟩ ∧
      after.nodes[e]? = some ⟨.div, [x, y], .real⟩ ∧
      after.nodes[u]? = some ⟨.mul, [k, e], .real⟩) fun _ _ _ => False := by
  have node := Store.node_of_getElem? whole
  have args : s.args t = [p, q] := by rw [Store.args, node.2]
  obtain ⟨limit, rfl⟩ : ∃ n, limit = n + 3 := ⟨limit - 3, by omega⟩
  refine Attempt.ensures_modify_bind ?_
  refine visit_ensures (by simp) (fun _ => Std.HashMap.getElem?_empty) (by dsimp only; omega)
    node.1 ?_
  refine Attempt.ensures_read_bind ?_
  rw [args]
  refine Attempt.ensures_bind (visit_scaledPair first second different left right names rfl
    (fun _ => Std.HashMap.getElem?_empty) (by dsimp only; omega)) ?_
  rintro _ r s _ ⟨rfl, rfl, config, steps⟩
  have steps : r.steps = 7 := steps
  refine Attempt.ensures_build_bind (rebuild_same args) ?_
  rintro t s _ ⟨rfl, rfl⟩
  have ruled := reduce_scaledQuotient whole first second
  rw [← config] at ruled
  refine ensures_runRule_bind ruled ?_
  rintro _ tally after grown ⟨_, k, e, m, rfl, literal, quotient, product⟩
  refine Attempt.ensures_modify_bind ?_
  have ratio : v / w ≠ 0 ∧ v / w ≠ 1 :=
    ⟨div_ne_zero first.proper.1 second.proper.1, by rwa [ne_eq, div_eq_one_iff_eq second.proper.1]⟩
  have inner := Store.node_of_getElem? quotient
  have scaled : Scaled after (v / w) k e m :=
    ⟨product, literal, ratio, by rw [Store.exactNumeral?, Store.op, inner.2],
      by rw [Store.op, inner.2]; simp⟩
  have again : (visit .unbounded (limit + 3) (limit + 3) (some 2) m).Ensures
      { r with tally, rewritten := r.rewritten + 1 } after (fun u _ last => u = m ∧ last = after)
      fun _ _ _ => False :=
    visit_scaledQuotient scaled quotient (grown _ _ left) (grown _ _ right) config
      (by dsimp only; omega)
  refine again.imp ?_ fun _ _ _ _ => id
  rintro _ _ _ _ ⟨rfl, rfl⟩
  exact ⟨k, e, literal, quotient, product⟩

end Products

section Witness

variable {J : Valuation} {s : Store} {t p q c d k e x y : TermId} {v w : ℚ} {op : Op}
  {args : List TermId} {sort : TermSort}

/-- The value of a literal times another number. -/
theorem meaning_of_product {a : ℝ} (whole : s.nodes[t]? = some ⟨.mul, [c, x], .real⟩)
    (literal : s.nodes[c]? = some ⟨.real v, [], .real⟩) (known : s.meaning J x = .number a) :
    s.meaning J t = .number (v * a) := by
  rw [meaning_of_getElem? whole]
  simp [meaning_of_getElem? literal, known, Op.evaluate, Op.function?, Op.interpret]

/-- The quotient of twice a constant and three times another one. -/
def quotientOfProducts : Terms TermId := do
  let x ← mkVar "x" .real
  let y ← mkVar "y" .real
  let c ← mkReal 2
  let d ← mkReal 3
  let p ← mkApp .mul [c, x]
  let q ← mkApp .mul [d, y]
  mkApp .div [p, q]

/-- The nodes of the quotient. -/
theorem quotientOfProducts_scaled : quotientOfProducts.Ensures .initial fun t s => ∃ p q c d x y,
    s.nodes[t]? = some ⟨.div, [p, q], .real⟩ ∧ Scaled s 2 c x p ∧ Scaled s 3 d y q ∧
      s.nodes[x]? = some ⟨.var "x", [], .real⟩ ∧ s.nodes[y]? = some ⟨.var "y", [], .real⟩ := by
  have constant (name : String) (s : Store) : (mkVar name .real).Ensures s fun x after =>
      after.nodes[x]? = some ⟨.var name, [], .real⟩ :=
    Terms.ensures_bind_of_all fun _ _ _ => intern_getElem? (by simp)
  have product {v : ℚ} {c x : TermId} {name : String} {s : Store} (proper : v ≠ 0 ∧ v ≠ 1)
      (literal : s.nodes[c]? = some ⟨.real v, [], .real⟩)
      (constant : s.nodes[x]? = some ⟨.var name, [], .real⟩) :
      (mkApp .mul [c, x]).Ensures s fun p after => Scaled after v c x p := by
    have lead := Store.node_of_getElem? literal
    have rest := Store.node_of_getElem? constant
    have real : s.inferSort .mul [c, x] = .real := by
      simp [Store.inferSort, Store.arithJoin, Store.isInt, Store.sortOf, lead.2, rest.2]
    refine (mkApp_getElem? (by simpa using ⟨lead.1, rest.1⟩) real).imp fun p after grown found => ?_
    have rest := Store.node_of_getElem? (grown _ _ constant)
    exact ⟨found, grown _ _ literal, proper, by rw [Store.exactNumeral?, Store.op, rest.2],
      by rw [Store.op, rest.2]; simp⟩
  refine Terms.ensures_bind (constant "x" _) fun x s₁ _ left => ?_
  refine Terms.ensures_bind (constant "y" s₁) fun y s₂ g₂ right => ?_
  refine Terms.ensures_bind (intern_getElem? (by simp)) fun c s₃ g₃ two => ?_
  refine Terms.ensures_bind (intern_getElem? (by simp)) fun d s₄ g₄ three => ?_
  have left := g₄ _ _ (g₃ _ _ (g₂ _ _ left))
  have right := g₄ _ _ (g₃ _ _ right)
  refine Terms.ensures_bind (product (by norm_num) (g₄ _ _ two) left) fun p s₅ g₅ first => ?_
  refine Terms.ensures_bind (product (by norm_num) (g₅ _ _ three) (g₅ _ _ right))
    fun q s₆ g₆ second => ?_
  have numerator := first.mono g₆
  have inside : ∀ a ∈ [p, q], a < s₆.size := by
    simpa using ⟨(Store.node_of_getElem? numerator.node).1, (Store.node_of_getElem? second.node).1⟩
  refine (mkApp_getElem? inside rfl).imp fun t after g₇ whole => ?_
  exact ⟨p, q, c, d, x, y, whole, numerator.mono g₇, second.mono g₇,
    g₇ _ _ (g₆ _ _ (g₅ _ _ left)), g₇ _ _ (g₆ _ _ (g₅ _ _ right))⟩

/-- The quotient is in the language. -/
theorem within_of_scaled {L : Language} {name other : String}
    (whole : s.nodes[t]? = some ⟨.div, [p, q], .real⟩) (first : Scaled s v c x p)
    (second : Scaled s w d y q) (left : s.nodes[x]? = some ⟨.var name, [], .real⟩)
    (right : s.nodes[y]? = some ⟨.var other, [], .real⟩) : s.Within L t := by
  have product {v : ℚ} {c x p : TermId} {name : String} (scaled : Scaled s v c x p)
      (constant : s.nodes[x]? = some ⟨.var name, [], .real⟩) : s.Within L p := by
    refine within_of_getElem? scaled.node (Store.admits_of_isFree rfl (.inl ⟨rfl, ?_⟩)) ?_
    · refine ⟨rfl, le_rfl, ?_⟩
      simpa using ⟨sortOf_of_getElem? scaled.literal, sortOf_of_getElem? constant⟩
    · simpa using ⟨within_of_leaf scaled.literal (Store.admits_of_isFree rfl (.inl ⟨rfl, rfl⟩)),
        within_of_leaf constant (Store.admits_of_isFree rfl (.inr rfl))⟩
  refine within_of_getElem? whole (Store.admits_of_isFree rfl ?_) ?_
  · exact ⟨rfl, sortOf_of_getElem? first.node, sortOf_of_getElem? second.node⟩
  · simpa using ⟨product first left, product second right⟩

/-- A valuation under which the real constants are zero, with one quotient by zero. -/
def zeros (quotient : ℝ) : Valuation :=
  ⟨⟨fun _ => True, fun _ => 0, fun _ => 0⟩, fun _ => quotient, id, id⟩

/-- The value of a quotient by zero. -/
theorem meaning_of_zeroDivisor {quotient : ℝ} (whole : s.nodes[t]? = some ⟨.div, [p, q], .real⟩)
    (zero : s.meaning (zeros quotient) q = .number 0) :
    s.meaning (zeros quotient) t = .number quotient := by
  have divided (x : ℝ) : (zeros quotient).divide x 0 = quotient := if_pos rfl
  rw [meaning_of_getElem? whole]
  simp [zero, Op.evaluate, divided]

/-- The values of the quotient, and of what it becomes, where both constants are zero. -/
theorem meaning_of_quotient {after : Store} {u : TermId} {other : String} (quotient : ℝ)
    (whole : s.nodes[t]? = some ⟨.div, [p, q], .real⟩) (second : Scaled s w d y q)
    (right : s.nodes[y]? = some ⟨.var other, [], .real⟩) (grown : s.Extends after)
    (literal : after.nodes[k]? = some ⟨.real v, [], .real⟩)
    (divided : after.nodes[e]? = some ⟨.div, [x, y], .real⟩)
    (product : after.nodes[u]? = some ⟨.mul, [k, e], .real⟩) :
    s.meaning (zeros quotient) t = .number quotient ∧
      after.meaning (zeros quotient) u = .number (v * quotient) := by
  have constant {s : Store} {a : TermId} {name : String}
      (found : s.nodes[a]? = some ⟨.var name, [], .real⟩) :
      s.meaning (zeros quotient) a = .number 0 := meaning_of_getElem? found
  refine ⟨meaning_of_zeroDivisor whole ?_, ?_⟩
  · simpa using meaning_of_product second.node second.literal (constant right)
  · exact meaning_of_product product literal
      (meaning_of_zeroDivisor divided (constant (grown _ _ right)))

end Witness
end Rewriting
end Stratagem
