import Stratagem.Proofs.Rewriting.Expansion
import Stratagem.Proofs.Rewriting.Fragment

/-!
# Canonical forms of polynomials

If sums are multiplied out and ordered, simplifying a polynomial gives a canonical sum. Two
polynomials are therefore simplified to the same term exactly if they denote the same polynomial.
What rules write down that is not canonical is visited again deep enough: a sum of products two
levels down, a product with minus one at the top.
-/
namespace Stratagem.Rewriting

open Terms Rule Arithmetic

variable {s : Store} {r : Simplifier} {context : Context} {limit fuel k n : ℕ} {isInt : Bool}
  {t a b p q : TermId} {args : List TermId} {ks : List ℕ} {config : SimplifierConfig}

section Rules

/-- Only the rules for numbers look at a polynomial. -/
theorem reduce_of_polynomial {post : Outcome → Store → Prop} (known : s.IsPolynomial isInt t)
    (compound : s.args t ≠ []) (lasting : ∀ now last, now.Extends last → post .failed now →
      post .failed last)
    (ruled : (Arithmetic.reduceHead t).Ensures config s post) :
    (reduce t).Ensures config s post := by
  have silent : (Connective.reduce t).Ensures config s fun o after => o = .failed ∧ after = s := by
    unfold Connective.reduce
    refine ensures_peek_bind ?_
    have form := known.form
    rcases Store.builds_cases form with ⟨none, _⟩ | ⟨op, a, one⟩ | ⟨op, a, b, two⟩ | ⟨op, _⟩ |
      ⟨op, _⟩
    · exact absurd none compound
    · rw [Store.view_eq_iff.mpr ⟨op, one⟩]
      exact ensures_pure ⟨rfl, rfl⟩
    · rw [Store.view_eq_iff.mpr ⟨op, two⟩]
      exact ensures_pure ⟨rfl, rfl⟩
    · rw [Store.view_eq_iff.mpr ⟨op, rfl⟩]
      exact ensures_pure ⟨rfl, rfl⟩
    · rw [Store.view_eq_iff.mpr ⟨op, rfl⟩]
      exact ensures_pure ⟨rfl, rfl⟩
  refine ensures_bind silent ?_
  rintro _ s _ ⟨rfl, rfl⟩
  refine ensures_bind (Arithmetic.reduce_ensures ruled) fun o middle grown holds => ?_
  split
  · next failed =>
    have none : o = .failed := by
      cases o with
      | failed => rfl
      | _ => cases failed
    have sorted : middle.WellSorted ⟨fun _ _ => True, True⟩ t :=
      (known.mono grown).wellSorted fun _ _ => trivial
    refine ensures_bind (BitVector.reduce_failed sorted) fun o last more bits => ?_
    rw [if_pos (by rw [bits]; rfl)]
    exact ensures_pure (lasting middle last more (none ▸ holds))
  · exact ensures_pure holds

/-- A term that becomes a canonical sum, or stays one, is one at the end. -/
theorem brief_of_answers (same : r.config = .canonizing)
    (ruled : (reduce t).Ensures .canonizing s (Answers isInt k t)) :
    Brief context limit fuel 0 (conclude (visit context limit fuel) t) r s
      fun u after => after.Expands isInt k u := by
  apply brief_conclude
  rw [same]
  refine ruled.imp fun o after _ answer => ?_
  obtain failed | done := answer
  · exact .inl failed
  · exact .inr (.inl done)

/-- The rules make a canonical sum of a sum of canonical sums. -/
theorem reduce_add (inside : t < s.size) (node : s.node t = ⟨.add, args, .number isInt⟩)
    (two : 2 ≤ args.length)
    (each : List.Forall₂ (fun a k => 0 < k ∧ s.Expands isInt k a) args ks) :
    (reduce t).Ensures .canonizing s (Answers isInt ks.sum t) := by
  have polynomials : ∀ a ∈ args, s.IsPolynomial isInt a := by
    intro a member
    obtain ⟨k, _, _, expands⟩ := exists_of_forall₂ each member
    exact expands.isPolynomial
  have known : s.IsPolynomial isInt t :=
    Store.Joins.isPolynomial (.many two inside node) (.inl rfl) polynomials
  have view : s.view t = (.add, args) := by rw [Store.view, node]
  refine reduce_of_polynomial known ?_ ?_ ?_
  · rw [Store.args, node]
    rintro rfl
    cases two
  · rintro now last grown (⟨_, expands⟩ | ⟨u, done, _⟩)
    · exact .inl ⟨rfl, expands.mono grown⟩
    · cases done
  · unfold Arithmetic.reduceHead
    refine ensures_peek_bind ?_
    rw [view]
    exact reduceAdd_answers inside node two each

/-- The rules make a monomial of a product of monomials, and a sum of products of monomials of a
product of sums. -/
theorem reduce_mul (inside : t < s.size) (node : s.node t = ⟨.mul, args, .number isInt⟩)
    (two : 2 ≤ args.length) (polynomials : ∀ a ∈ args, s.IsPolynomial isInt a)
    (each : ∀ f ∈ s.factors args, IsFactor s isInt f) :
    (reduce t).Ensures .canonizing s fun o after => Answers isInt 1 t o after ∨
      (∃ f ∈ s.factors args, s.op f = .add) ∧
        ∃ q, o = .revisit 2 q ∧ IsRawSum after isInt (choices s (s.factors args)) q := by
  have known : s.IsPolynomial isInt t :=
    Store.Joins.isPolynomial (.many two inside node) (.inr rfl) polynomials
  have view : s.view t = (.mul, args) := by rw [Store.view, node]
  refine reduce_of_polynomial known ?_ ?_ ?_
  · rw [Store.args, node]
    rintro rfl
    cases two
  · rintro now last grown ((⟨_, expands⟩ | ⟨u, done, _⟩) | ⟨_, q, again, _⟩)
    · exact .inl (.inl ⟨rfl, expands.mono grown⟩)
    · cases done
    · cases again
  · unfold Arithmetic.reduceHead
    refine ensures_peek_bind ?_
    rw [view]
    exact reduceMul_answers inside node two each

/-- The rules make a monomial of a product of monomials. -/
theorem reduce_monomials (inside : t < s.size) (node : s.node t = ⟨.mul, args, .number isInt⟩)
    (two : 2 ≤ args.length) (spells : ∀ a ∈ args, ∃ m, s.Spells isInt m a) :
    (reduce t).Ensures .canonizing s (Answers isInt 1 t) := by
  have atoms : ∀ f ∈ s.factors args, IsAtom s isInt f := by
    intro f member
    obtain ⟨a, inside, member⟩ := List.mem_flatMap.mp member
    obtain ⟨m, spelled⟩ := spells a inside
    exact atoms_of_spells spelled f member
  have polynomials : ∀ a ∈ args, s.IsPolynomial isInt a := by
    intro a member
    obtain ⟨m, spelled⟩ := spells a member
    exact spelled.isPolynomial
  refine (reduce_mul inside node two polynomials fun f member => .inl (atoms f member)).imp
    fun o after _ result => ?_
  obtain answer | ⟨⟨f, member, sum⟩, _⟩ := result
  · exact answer
  · obtain ⟨m, spelled⟩ := (atoms f member).spells
    exact absurd sum spelled.op_ne_add

/-- Canonical sums of one monomial each. -/
theorem forall₂_ones {terms : List TermId} (each : ∀ a ∈ terms, s.Expands isInt 1 a) :
    List.Forall₂ (fun a k => 0 < k ∧ s.Expands isInt k a) terms
      (List.replicate terms.length 1) := by
  induction terms with
  | nil => exact .nil
  | cons a rest tail =>
    obtain ⟨here, later⟩ := List.forall_mem_cons.mp each
    exact .cons ⟨Nat.one_pos, here⟩ (tail later)

/-- The rules leave a canonical sum canonical. -/
theorem reduce_expands (expands : s.Expands isInt k t) (positive : 0 < k) :
    (reduce t).Ensures .canonizing s (Answers isInt k t) := by
  have known := expands
  have atom {op : Op} (view : s.view t = (op, [])) (atomic : op.isAtom) :
      (reduce t).Ensures .canonizing s (Answers isInt k t) := by
    refine (reduce_atom view atomic).imp fun o after _ failed => ?_
    exact .inl ⟨failed.1, failed.2 ▸ known⟩
  have literal {c : ℚ} (literal : s.IsLiteral isInt c t) :
      (reduce t).Ensures .canonizing s (Answers isInt k t) :=
    atom literal.view (by cases isInt <;> rfl)
  have product {terms : List TermId} (two : 2 ≤ terms.length) (inside : t < s.size)
      (node : s.node t = ⟨.mul, terms, .number isInt⟩)
      (spells : ∀ a ∈ terms, ∃ m, s.Spells isInt m a) :
      (reduce t).Ensures .canonizing s (Answers isInt k t) := by
    refine (reduce_monomials inside node two spells).imp fun o after _ answer => ?_
    obtain ⟨failed, expands⟩ | ⟨u, done, expands⟩ := answer
    · exact .inl ⟨failed, expands.weaken positive⟩
    · exact .inr ⟨u, done, expands.weaken positive⟩
  have constants {xs : PowerProduct} (known : s.IsProduct isInt xs) (x : TermId) (member : x ∈ xs) :
      ∃ m, s.Spells isInt m x := ⟨_, spells_of_constant (known.constants x member)⟩
  obtain ⟨ms, canonical, few⟩ := expands
  obtain ⟨_, zero⟩ | ⟨terms, spells, joins⟩ := canonical.spelled
  · exact literal zero
  · cases joins with
    | one =>
      obtain ⟨m, _, spelled⟩ := exists_of_forall₂ spells.flip (List.mem_singleton_self t)
      cases spelled with
      | literal known => exact literal known
      | product xs _ joins =>
        cases joins with
        | one =>
          obtain ⟨name, view⟩ := (xs.constants t (List.mem_singleton_self t)).view
          exact atom view rfl
        | many two inside node => exact product two inside node (constants xs)
      | multiple xs _ _ _ lead joins =>
        cases joins with
        | one => exact literal lead
        | many two inside node =>
          exact product two inside node
            (List.forall_mem_cons.mpr ⟨⟨_, .literal lead⟩, constants xs⟩)
    | many two inside node =>
      have each : List.Forall₂ (fun a k => 0 < k ∧ s.Expands isInt k a) terms
          (List.replicate terms.length 1) := by
        refine forall₂_ones fun a member => ?_
        obtain ⟨m, _, spelled⟩ := exists_of_forall₂ spells.flip member
        exact spelled.expands
      refine (reduce_add inside node two each).imp fun o after _ answer => ?_
      have count : (List.replicate terms.length 1).sum ≤ k := by
        rw [List.sum_replicate, smul_eq_mul, Nat.mul_one, ← spells.length_eq]
        exact few
      obtain ⟨failed, expands⟩ | ⟨u, done, expands⟩ := answer
      · exact .inl ⟨failed, expands.weaken count⟩
      · exact .inr ⟨u, done, expands.weaken count⟩

end Rules

section Visits

/-- Visiting a canonical sum alone gives one. -/
theorem brief_visit_expands (same : r.config = .canonizing) (expands : s.Expands isInt k t)
    (positive : 0 < k) :
    Brief context limit fuel 1 (visit context limit fuel (some 1) t) r s
      fun u after => after.Expands isInt k u := by
  apply brief_visit expands.isPolynomial.inside
  intro fuel r' config
  apply brief_rewriteWith_one
  intro r'' config'
  exact brief_of_answers (config'.trans (config.trans same)) (reduce_expands expands positive)

/-- Visiting a product of monomials alone gives a monomial. -/
theorem brief_visit_rawProduct (same : r.config = .canonizing) (raw : IsRawProduct s isInt p) :
    Brief context limit fuel 1 (visit context limit fuel (some 1) p) r s
      fun u after => after.Expands isInt 1 u := by
  obtain ⟨inside, args, node, two, spells⟩ := raw
  apply brief_visit inside
  intro fuel r' config
  apply brief_rewriteWith_one
  intro r'' config'
  exact brief_of_answers (config'.trans (config.trans same)) (reduce_monomials inside node two spells)

/-- Putting polynomials in the place of the arguments of a polynomial. -/
theorem rebuild_polynomial {op : Op} {old : List TermId}
    (head : op = .neg ∨ op = .sub ∨ op = .add ∨ op = .mul) (inside : t < s.size)
    (node : s.node t = ⟨op, old, .number isInt⟩) (some : args ≠ [])
    (each : ∀ a ∈ args, s.IsPolynomial isInt a) :
    (rebuild t args).Ensures s fun u after =>
      u < after.size ∧ after.node u = ⟨op, args, .number isInt⟩ := by
  unfold rebuild
  apply Terms.ensures_read_bind
  rw [node]
  dsimp only
  split
  · next same => exact Terms.ensures_pure ⟨inside, same ▸ node⟩
  · have interpreted : op.hasOwnSort = false := by
      obtain rfl | rfl | rfl | rfl := head <;> rfl
    rw [interpreted]
    exact mkApp_polynomials head some each

/-- A sum whose arguments have become canonical sums becomes one. -/
theorem brief_conclude_add {old : List TermId} (same : r.config = .canonizing)
    (inside : t < s.size) (node : s.node t = ⟨.add, old, .number isInt⟩) (two : 2 ≤ args.length)
    (each : List.Forall₂ (fun a k => 0 < k ∧ s.Expands isInt k a) args ks) :
    Brief context limit fuel 0 (do
      let t' ← (rebuild t args : Terms TermId)
      conclude (visit context limit fuel) t') r s fun u after => after.Expands isInt ks.sum u := by
  have polynomials : ∀ a ∈ args, s.IsPolynomial isInt a := by
    intro a member
    obtain ⟨k, _, _, expands⟩ := exists_of_forall₂ each member
    exact expands.isPolynomial
  have some : args ≠ [] := by
    rintro rfl
    cases two
  apply Brief.build_bind
    (rebuild_polynomial (.inr (.inr (.inl rfl))) inside node some polynomials)
  intro u after grown found
  have later := each.imp fun a k known => And.intro known.1 (known.2.mono grown)
  exact brief_of_answers same (reduce_add found.1 found.2 two later)

/-- Visiting a sum of products of monomials two levels down gives a canonical sum. -/
theorem brief_visit_rawSum (same : r.config = .canonizing) (raw : IsRawSum s isInt n q) :
    Brief context limit fuel (n + 1) (visit context limit fuel (some 2) q) r s
      fun u after => after.Expands isInt n u := by
  obtain ⟨inside, products, node, two, few, raw⟩ := raw
  have arguments : s.args q = products := by rw [Store.args, node]
  apply brief_visit inside
  intro fuel r' config
  have lasting : ∀ (a b : TermId) (before after : Store), before.Extends after →
      before.Expands isInt 1 b → after.Expands isInt 1 b := fun _ _ _ _ more known => known.mono more
  have visited : Brief context limit fuel (products.map fun _ => 1).sum
      ((s.args q).mapM (visit context limit fuel (some 1))) r' s fun results after =>
        List.Forall₂ (fun _ b => after.Expands isInt 1 b) products results := by
    rw [arguments]
    apply Brief.mapM lasting products
    intro p member r'' now grown config'
    exact brief_visit_rawProduct (config'.trans (config.trans same)) ((raw p member).mono grown)
  have total : (products.map fun _ => 1).sum + 0 ≤ n := by simpa using few
  apply Brief.mono _ total
  apply brief_rewriteWith visited
  intro args r'' now grown config' found
  have each : ∀ b ∈ args, now.Expands isInt 1 b := by
    intro b member
    obtain ⟨_, _, expands⟩ := exists_of_forall₂ found.flip member
    exact expands
  have length : args.length = products.length := found.length_eq.symm
  have total : (List.replicate args.length 1).sum ≤ n := by
    rw [List.sum_replicate, smul_eq_mul, Nat.mul_one, length]
    exact few
  apply (brief_conclude_add (config'.trans (config.trans same)) (grown.lt_size inside)
    ((grown.node_eq inside).trans node) (length ▸ two) (forall₂_ones each)).imp (Nat.le_refl 0)
  exact fun u after _ expands => expands.weaken total

/-- A product of canonical sums becomes a canonical sum. -/
theorem brief_conclude_mul (same : r.config = .canonizing) (inside : t < s.size)
    (node : s.node t = ⟨.mul, args, .number isInt⟩) (two : 2 ≤ args.length)
    (each : List.Forall₂ (fun a k => 0 < k ∧ s.Expands isInt k a) args ks) :
    Brief context limit fuel (ks.prod + 1) (conclude (visit context limit fuel) t) r s
      fun u after => after.Expands isInt ks.prod u := by
  have polynomials : ∀ a ∈ args, s.IsPolynomial isInt a := by
    intro a member
    obtain ⟨k, _, _, expands⟩ := exists_of_forall₂ each member
    exact expands.isPolynomial
  have positive : 0 < ks.prod := by
    apply List.prod_pos
    intro k member
    obtain ⟨_, _, known⟩ := exists_of_forall₂ each.flip member
    exact known.1
  obtain ⟨factors, few⟩ := factors_of_args each
  apply brief_conclude
  rw [same]
  refine (reduce_mul inside node two polynomials factors).imp fun o after _ result => ?_
  obtain (⟨failed, expands⟩ | ⟨u, done, expands⟩) | ⟨_, q, again, raw⟩ := result
  · exact .inl ⟨failed, expands.weaken positive⟩
  · exact .inr (.inl ⟨u, done, expands.weaken positive⟩)
  · refine .inr (.inr ⟨2, q, again, fun r' config => ?_⟩)
    apply (brief_visit_rawSum config raw).imp
    · exact Nat.succ_le_succ few
    · exact fun u after _ expands => expands.weaken few

/-- Visiting a product of canonical sums alone gives a canonical sum. -/
theorem brief_visit_mul (same : r.config = .canonizing) (inside : t < s.size)
    (node : s.node t = ⟨.mul, args, .number isInt⟩) (two : 2 ≤ args.length)
    (each : List.Forall₂ (fun a k => 0 < k ∧ s.Expands isInt k a) args ks) :
    Brief context limit fuel (ks.prod + 2) (visit context limit fuel (some 1) t) r s
      fun u after => after.Expands isInt ks.prod u := by
  apply brief_visit inside
  intro fuel r' config
  apply brief_rewriteWith_one
  intro r'' config'
  exact brief_conclude_mul (config'.trans (config.trans same)) inside node two each

/-- Visiting the sum of a canonical sum and a product of canonical sums two levels down gives a
canonical sum. -/
theorem brief_visit_sum {j : ℕ} (same : r.config = .canonizing) (inside : q < s.size)
    (node : s.node q = ⟨.add, [a, p], .number isInt⟩) (first : s.Expands isInt j a)
    (positive : 0 < j) (within : p < s.size) (product : s.node p = ⟨.mul, args, .number isInt⟩)
    (two : 2 ≤ args.length)
    (each : List.Forall₂ (fun a k => 0 < k ∧ s.Expands isInt k a) args ks) :
    Brief context limit fuel (ks.prod + 4) (visit context limit fuel (some 2) q) r s
      fun u after => after.Expands isInt (j + ks.prod) u := by
  have arguments : s.args q = [a, p] := by rw [Store.args, node]
  have factors : 0 < ks.prod := by
    apply List.prod_pos
    intro k member
    obtain ⟨_, _, known⟩ := exists_of_forall₂ each.flip member
    exact known.1
  apply brief_visit inside
  intro fuel r' config
  have visited : Brief context limit fuel (1 + (ks.prod + 2))
      ((s.args q).mapM (visit context limit fuel (some 1))) r' s fun results after =>
        List.Forall₂ (fun b k => 0 < k ∧ after.Expands isInt k b) results [j, ks.prod] := by
    rw [arguments]
    apply Brief.mapM_pair (brief_visit_expands (config.trans same) first positive)
    intro u r'' now grown config' left
    have later := each.imp fun a k known => And.intro known.1 (known.2.mono grown)
    apply (brief_visit_mul (config'.trans (config.trans same)) (grown.lt_size within)
      ((grown.node_eq within).trans product) two later).imp (Nat.le_refl _)
    intro w after more right
    exact .cons ⟨positive, left.mono more⟩ (.cons ⟨factors, right⟩ .nil)
  have total : 1 + (ks.prod + 2) + 0 ≤ ks.prod + 3 := by omega
  apply Brief.mono _ total
  apply brief_rewriteWith visited
  intro found r'' now grown config' sums
  have pair : 2 ≤ found.length := by
    rw [sums.length_eq]
    exact Nat.le_refl 2
  have summed : Brief context limit fuel 0 (do
      let t' ← (rebuild q found : Terms TermId)
      conclude (visit context limit fuel) t') r'' now
      fun u after => after.Expands isInt [j, ks.prod].sum u :=
    brief_conclude_add (config'.trans (config.trans same)) (grown.lt_size inside)
      ((grown.node_eq inside).trans node) pair sums
  simpa using summed

end Visits

section Terms

/-- A polynomial with a rational value as a head is a literal. -/
theorem literal_of_numeral? {c : ℚ} (known : s.IsPolynomial isInt t)
    (value : s.numeral? t = some c) : s.IsLiteral isInt c t := by
  have head (other : ∀ n, s.op t ≠ .int n) (none : ∀ r, s.op t ≠ .real r) : False := by
    unfold Store.numeral? at value
    split at value
    · next n op => exact other n op
    · next r op => exact none r op
    · cases value
  have node (op : Op) (same : s.op t = op) (none : s.args t = []) :
      s.node t = ⟨op, [], .number isInt⟩ := by
    have sort := known.sort
    rw [← same, ← none, ← sort]
    rfl
  rcases Store.builds_cases known.form with ⟨none, ⟨_, op⟩ | ⟨n, op, rfl⟩ | ⟨q, op, rfl⟩⟩ |
    ⟨op, _⟩ | ⟨op, _⟩ | ⟨op, _⟩ | ⟨op, _⟩
  · exact (head (by simp [op]) (by simp [op])).elim
  · rw [Store.numeral?, op] at value
    obtain rfl : (n : ℚ) = c := Option.some.inj value
    refine ⟨known.inside, fun _ => Rational.isIntegral_intCast n, ?_⟩
    rw [node _ op none]
    rfl
  · rw [Store.numeral?, op] at value
    obtain rfl := Option.some.inj value
    refine ⟨known.inside, (by simp), ?_⟩
    rw [node _ op none]
    rfl
  · exact (head (by simp [op]) (by simp [op])).elim
  · exact (head (by simp [op]) (by simp [op])).elim
  · exact (head (by simp [op]) (by simp [op])).elim
  · exact (head (by simp [op]) (by simp [op])).elim

/-- A constant or a literal is a canonical sum. -/
theorem expands_of_atom (known : s.IsPolynomial isInt t) (none : s.args t = []) :
    s.Expands isInt 1 t := by
  cases value : s.numeral? t with
  | some c => exact (Store.Spells.literal (literal_of_numeral? known value)).expands
  | none =>
    rcases Store.builds_cases known.form with ⟨_, ⟨name, op⟩ | ⟨n, op, _⟩ | ⟨q, op, _⟩⟩ |
      ⟨_, _, some⟩ | ⟨_, _, _, some⟩ | ⟨_, some⟩ | ⟨_, some⟩
    · have sort := known.sort
      have node : s.node t = ⟨.var name, [], .number isInt⟩ := by
        rw [← op, ← none, ← sort]
        rfl
      exact (spells_of_constant ⟨known.inside, name, node⟩).expands
    · rw [Store.numeral?, op] at value
      cases value
    · rw [Store.numeral?, op] at value
      cases value
    all_goals
      rw [none] at some
      cases some

/-- The negation of a canonical sum becomes a canonical sum. -/
theorem brief_conclude_neg (same : r.config = .canonizing) (inside : t < s.size)
    (node : s.node t = ⟨.neg, [a], .number isInt⟩) (expands : s.Expands isInt k a)
    (positive : 0 < k) :
    Brief context limit fuel (k + 2) (conclude (visit context limit fuel) t) r s
      fun u after => after.Expands isInt k u := by
  have argument := expands.isPolynomial
  have known : s.IsPolynomial isInt t := by
    refine .intro inside (by rw [Store.sortOf, node]) ?_ ?_
    · rw [Store.op, Store.args, node]
      trivial
    · rw [Store.args, node]
      simpa using argument
  have view : s.view t = (.neg, [a]) := by rw [Store.view, node]
  have sort : s.isInt t = isInt := by
    rw [Store.isInt, known.sort]
    cases isInt <;> rfl
  have ruled : (reduce t).Ensures .canonizing s fun o after =>
      (∃ u, o = .done u ∧ after.Expands isInt 1 u) ∨
      ∃ q l, o = .revisit 1 q ∧ q < after.size ∧
        after.node q = ⟨.mul, [l, a], .number isInt⟩ ∧ after.Expands isInt 1 l ∧
        after.Expands isInt k a := by
    refine reduce_of_polynomial known (by simp [Store.args, node]) ?_ ?_
    · rintro _ _ _ (⟨u, done, _⟩ | ⟨q, l, again, _⟩)
      · cases done
      · cases again
    unfold Arithmetic.reduceHead
    refine ensures_peek_bind ?_
    rw [view]
    show (reduceNeg t a).Ensures .canonizing s _
    unfold reduceNeg
    refine ensures_peek_bind ?_
    rw [sort]
    refine ensures_numeralValue?_bind (argument.wellSorted (Γ := ⟨fun _ _ => True, True⟩)
      fun _ _ => trivial) ?_
    cases value : s.numeral? a with
    | some c =>
      have literal := literal_of_numeral? argument value
      have negated : (mkNumber (.rational (-c)) isInt).Ensures .canonizing s fun u after =>
          after.IsLiteral isInt (-c) u :=
        mkNumber_literal fun int => Rational.isIntegral_neg (literal.integral int)
      refine ensures_bind negated fun u after _ literal => ?_
      exact ensures_pure (.inl ⟨u, rfl, (Store.Spells.literal literal).expands⟩)
    | none =>
      refine ensures_bind (ensures_lift (mkNumeral_literal fun _ =>
        Rational.isIntegral_neg Rational.isIntegral_one)) fun l middle grown literal => ?_
      have polynomials : ∀ x ∈ [l, a], middle.IsPolynomial isInt x := by
        simpa using ⟨literal.isPolynomial, argument.mono grown⟩
      refine ensures_bind (ensures_lift (mkApp_polynomials (.inr (.inr (.inr rfl)))
        (List.cons_ne_nil l _) polynomials)) fun q after more found => ?_
      exact ensures_pure (.inr ⟨q, l, rfl, found.1, found.2,
        ((Store.Spells.literal literal).expands).mono more, (expands.mono grown).mono more⟩)
  apply brief_conclude
  rw [same]
  refine ruled.imp fun o after _ result => ?_
  obtain ⟨u, done, literal⟩ | ⟨q, l, again, found, product, lead, rest⟩ := result
  · exact .inr (.inl ⟨u, done, literal.weaken positive⟩)
  · refine .inr (.inr ⟨1, q, again, fun r' config => ?_⟩)
    have factors : List.Forall₂ (fun a k => 0 < k ∧ after.Expands isInt k a) [l, a] [1, k] :=
      .cons ⟨Nat.one_pos, lead⟩ (.cons ⟨positive, rest⟩ .nil)
    have visited : Brief context limit fuel ([1, k].prod + 2)
        (visit context limit fuel (some 1) q) r' after
        fun u last => last.Expands isInt [1, k].prod u :=
      brief_visit_mul config found product (Nat.le_refl 2) factors
    simpa using visited

/-- The difference of canonical sums becomes a canonical sum. -/
theorem brief_conclude_sub {j : ℕ} (same : r.config = .canonizing) (inside : t < s.size)
    (node : s.node t = ⟨.sub, [a, b], .number isInt⟩) (left : s.Expands isInt j a)
    (right : s.Expands isInt k b) (some : 0 < j) (positive : 0 < k) :
    Brief context limit fuel (k + 4) (conclude (visit context limit fuel) t) r s
      fun u after => after.Expands isInt (j + k) u := by
  have known : s.IsPolynomial isInt t := by
    refine .intro inside (by rw [Store.sortOf, node]) ?_ ?_
    · rw [Store.op, Store.args, node]
      trivial
    · rw [Store.args, node]
      simpa using ⟨left.isPolynomial, right.isPolynomial⟩
  have view : s.view t = (.sub, [a, b]) := by rw [Store.view, node]
  have sort : s.isInt t = isInt := by
    rw [Store.isInt, known.sort]
    cases isInt <;> rfl
  have ruled : (reduce t).Ensures .canonizing s fun o after =>
      ∃ q p l, o = .revisit 2 q ∧ q < after.size ∧ after.node q = ⟨.add, [a, p], .number isInt⟩ ∧
        p < after.size ∧ after.node p = ⟨.mul, [l, b], .number isInt⟩ ∧
        after.Expands isInt 1 l ∧ s.Extends after := by
    refine reduce_of_polynomial known (by simp [Store.args, node]) ?_ ?_
    · rintro _ _ _ ⟨q, p, l, again, _⟩
      cases again
    unfold Arithmetic.reduceHead
    refine ensures_peek_bind ?_
    rw [view]
    show (reduceSub t a b).Ensures .canonizing s _
    unfold reduceSub
    refine ensures_peek_bind ?_
    rw [sort]
    refine ensures_bind (ensures_lift (mkNumeral_literal fun _ =>
      Rational.isIntegral_neg Rational.isIntegral_one)) fun l first grown literal => ?_
    have factors : ∀ x ∈ [l, b], first.IsPolynomial isInt x := by
      simpa using ⟨literal.isPolynomial, right.isPolynomial.mono grown⟩
    refine ensures_bind (ensures_lift (mkApp_polynomials (.inr (.inr (.inr rfl)))
      (List.cons_ne_nil l _) factors)) fun p second more product => ?_
    have factors : ∀ x ∈ [l, b], second.IsPolynomial isInt x := fun x member =>
      (factors x member).mono more
    have pair : 2 ≤ [l, b].length := Nat.le_refl 2
    have negated : second.IsPolynomial isInt p :=
      Store.Joins.isPolynomial (.many pair product.1 product.2) (.inr rfl) factors
    have grown := grown.trans more
    have summands : ∀ x ∈ [a, p], second.IsPolynomial isInt x := by
      simpa using ⟨left.isPolynomial.mono grown, negated⟩
    refine ensures_bind (ensures_lift (mkApp_polynomials (.inr (.inr (.inl rfl)))
      (List.cons_ne_nil a _) summands)) fun q after most found => ?_
    refine ensures_pure ⟨q, p, l, rfl, found.1, found.2, most.lt_size product.1,
      (most.node_eq product.1).trans product.2, ?_, grown.trans most⟩
    exact (((Store.Spells.literal literal).expands).mono more).mono most
  apply brief_conclude
  rw [same]
  refine ruled.imp fun o after _ result => ?_
  obtain ⟨q, p, l, again, found, sum, within, product, lead, grown⟩ := result
  refine .inr (.inr ⟨2, q, again, fun r' config => ?_⟩)
  have factors : List.Forall₂ (fun a k => 0 < k ∧ after.Expands isInt k a) [l, b] [1, k] :=
    .cons ⟨Nat.one_pos, lead⟩ (.cons ⟨positive, right.mono grown⟩ .nil)
  have visited : Brief context limit fuel ([1, k].prod + 4)
      (visit context limit fuel (Option.some 2) q) r' after
      fun u last => last.Expands isInt (j + [1, k].prod) u :=
    brief_visit_sum config found sum (left.mono grown) some within product (Nat.le_refl 2) factors
  simpa using visited

/-- A polynomial whose arguments have become canonical sums becomes one. -/
theorem brief_conclude_polynomial (same : r.config = .canonizing) (known : s.IsPolynomial isInt t)
    (results : List.Forall₂ (fun a b => s.Expands isInt (s.width a) b) (s.args t) args) :
    Brief context limit fuel (s.width t + 4) (do
      let t' ← (rebuild t args : Terms TermId)
      conclude (visit context limit fuel) t') r s
      fun u after => after.Expands isInt (s.width t) u := by
  have whole : s.width t = (s.op t).width ((s.args t).map s.width) := s.fold_eq Op.width t
  have node {op : Op} (head : s.op t = op) : s.node t = ⟨op, s.args t, .number isInt⟩ := by
    have sort := known.sort
    rw [← head, ← sort]
    rfl
  have positive (a : TermId) (member : a ∈ s.args t) : 0 < s.width a :=
    (known.of_mem_args member).width_pos
  have each : List.Forall₂ (fun b k => 0 < k ∧ s.Expands isInt k b) args
      ((s.args t).map s.width) := by
    rw [List.forall₂_map_right_iff]
    have both := (List.forall₂_and_left _ _).mpr ⟨positive, results⟩
    exact both.flip
  have polynomials : ∀ b ∈ args, s.IsPolynomial isInt b := by
    intro b member
    obtain ⟨k, _, _, expands⟩ := exists_of_forall₂ each member
    exact expands.isPolynomial
  have length : args.length = (s.args t).length := results.length_eq.symm
  rcases Store.builds_cases known.form with ⟨none, _⟩ | ⟨head, a, one⟩ | ⟨head, a, b, pair⟩ |
    ⟨head, two⟩ | ⟨head, two⟩
  · have empty : s.args t = args := by
      rw [none] at results ⊢
      exact (List.forall₂_nil_left_iff.mp results).symm
    apply Brief.build_bind (rebuild_same empty)
    rintro t s _ ⟨rfl, rfl⟩
    have expands := (expands_of_atom known none).weaken known.width_pos
    exact (brief_of_answers same (reduce_expands expands known.width_pos)).mono (Nat.zero_le _)
  · have bound : s.width t = s.width a := by
      rw [whole, head, one]
      rfl
    rw [one] at results
    obtain ⟨a', rest, expands, none, rfl⟩ := List.forall₂_cons_left_iff.mp results
    obtain rfl := List.forall₂_nil_left_iff.mp none
    apply Brief.build_bind (rebuild_polynomial (.inl rfl) known.inside (node head)
      (List.cons_ne_nil a' _) polynomials)
    intro u after grown found
    rw [bound]
    exact (brief_conclude_neg same found.1 found.2 (expands.mono grown)
      (positive a (by simp [one]))).mono (by omega)
  · have bound : s.width t = s.width a + s.width b := by
      rw [whole, head, pair]
      rfl
    rw [pair] at results
    obtain ⟨a', rest, left, others, rfl⟩ := List.forall₂_cons_left_iff.mp results
    obtain ⟨b', rest, right, none, rfl⟩ := List.forall₂_cons_left_iff.mp others
    obtain rfl := List.forall₂_nil_left_iff.mp none
    apply Brief.build_bind (rebuild_polynomial (.inr (.inl rfl)) known.inside (node head)
      (List.cons_ne_nil a' _) polynomials)
    intro u after grown found
    rw [bound]
    exact (brief_conclude_sub same found.1 found.2 (left.mono grown) (right.mono grown)
      (positive a (by simp [pair])) (positive b (by simp [pair]))).mono (by omega)
  · have bound : s.width t = ((s.args t).map s.width).sum := by
      rw [whole, head]
      rfl
    rw [bound]
    exact (brief_conclude_add same known.inside (node head) (length ▸ two) each).mono
      (Nat.zero_le _)
  · have bound : s.width t = ((s.args t).map s.width).prod := by
      rw [whole, head]
      rfl
    have some : args ≠ [] := by
      rintro rfl
      rw [← length] at two
      cases two
    apply Brief.build_bind (rebuild_polynomial (.inr (.inr (.inr rfl))) known.inside (node head)
      some polynomials)
    intro u after grown found
    have later := each.imp fun a k known => And.intro known.1 (known.2.mono grown)
    rw [bound]
    exact (brief_conclude_mul same found.1 found.2 (length ▸ two) later).mono (by omega)

/-- Polynomials of a sort of numbers with at most a number of monomials. -/
def polynomials (isInt : Bool) (most : ℕ) : Fragment .canonizing where
  Member s t := s.IsPolynomial isInt t ∧ s.width t ≤ most
  Result s t u := s.Expands isInt (s.width t) u
  extra := most + 4
  inside member := member.1.inside
  args member inside := ⟨member.1.of_mem_args inside, (member.1.width_le inside).trans member.2⟩
  mono member grown :=
    ⟨member.1.mono grown, (grown.fold_eq Op.width member.1.inside).trans_le member.2⟩
  back grown inside member :=
    ⟨member.1.of_extends grown inside, (grown.fold_eq Op.width inside).symm.trans_le member.2⟩
  lasting grown member result := by
    have same := grown.fold_eq Op.width member.1.inside
    unfold Store.width at result ⊢
    rw [same]
    exact result.mono grown
  concluded same member results := by
    apply (brief_conclude_polynomial same member.1 results).imp
    · exact Nat.add_le_add_right member.2 4
    · intro u after grown expands
      have same := grown.fold_eq Op.width member.1.inside
      unfold Store.width at expands ⊢
      rw [same]
      exact expands

end Terms

section Runs

/-- A number of steps that suffices to simplify a polynomial. -/
def effort (s : Store) (t : TermId) : ℕ := (s.width t + 5) * (t + 1)

/-- Simplifying a polynomial gives a canonical sum, and fails only by the limit on the steps. -/
theorem simplify_polynomial (reachable : r.Reachable s) (same : r.config = .canonizing)
    (known : s.IsPolynomial isInt t) :
    (simplify t).Ensures r s (fun u _ after => after.Expands isInt (after.width t) u)
      fun e _ _ => e = .stepsExceeded r.config.maxSteps ∧ r.config.maxSteps < effort s t := by
  apply simplify_ensures
  have remembers : (polynomials isInt (s.width t)).Knows r s := by
    have every := Fragment.knows_of_reachable reachable
    rw [same] at every
    exact every (polynomials isInt (s.width t))
  exact Fragment.simplifyWithin_member remembers ⟨known, Nat.le_refl _⟩

end Runs

/-- If sums are multiplied out and ordered, two polynomials are simplified to the same term exactly
if they denote the same polynomial, and exactly if they have the same values under all assignments.
Simplifying them fails only by the limit on the steps, and then more steps are needed than there
are. -/
theorem simplify_canonizes {r₁ r₁' r₂ r₂' : Simplifier} {s₁ s₁' s₂ s₂' : Store} {t₁ t₂ : TermId}
    {o₁ o₂ : Except Error TermId} (reachable₁ : r₁.Reachable s₁)
    (same₁ : r₁.config = .canonizing) (known₁ : s₁.IsPolynomial isInt t₁)
    (run₁ : ((simplify t₁).runFrom r₁).run s₁ = ((o₁, r₁'), s₁')) (grown : s₁'.Extends s₂)
    (reachable₂ : r₂.Reachable s₂) (same₂ : r₂.config = .canonizing)
    (known₂ : s₂.IsPolynomial isInt t₂)
    (run₂ : ((simplify t₂).runFrom r₂).run s₂ = ((o₂, r₂'), s₂')) :
    (∀ u₁ u₂, o₁ = .ok u₁ → o₂ = .ok u₂ →
      (u₁ = u₂ ↔ s₁.polynomial t₁ = s₂.polynomial t₂) ∧
      (u₁ = u₂ ↔ ∀ I, s₁.value I t₁ = s₂.value I t₂)) ∧
    (∀ e, o₁ = .error e → e = .stepsExceeded r₁.config.maxSteps ∧
      r₁.config.maxSteps < effort s₁ t₁) ∧
    ∀ e, o₂ = .error e → e = .stepsExceeded r₂.config.maxSteps ∧
      r₂.config.maxSteps < effort s₂ t₂ := by
  refine ⟨?_, ?_, ?_⟩
  · rintro u₁ u₂ rfl rfl
    have all : ∀ name sort, Signature.full.constant name sort := fun _ _ => trivial
    have values₁ := (simplify_equivalent reachable₁ (known₁.wellSorted all) run₁).2
    have values₂ := (simplify_equivalent reachable₂ (known₂.wellSorted all) run₂).2
    obtain ⟨ms, canonical₁, _⟩ := (simplify_polynomial reachable₁ same₁ known₁).of_ok run₁
    obtain ⟨ns, canonical₂, _⟩ := (simplify_polynomial reachable₂ same₂ known₂).of_ok run₂
    have later : s₂.Extends s₂' := by
      have grows := ((simplify t₂).runFrom r₂).grows s₂
      rwa [run₂] at grows
    have grown := grown.trans later
    have same₁ : ∀ I, s₂'.value I u₁ = s₁.value I t₁ := fun I =>
      (grown.value_eq I canonical₁.isPolynomial.inside).trans (values₁ I)
    have canonical₁ := canonical₁.mono grown
    have equal : u₁ = u₂ → ∀ I, s₁.value I t₁ = s₂.value I t₂ := by
      rintro rfl I
      rw [← same₁ I, values₂ I]
    have denote : (∀ I, s₁.value I t₁ = s₂.value I t₂) → s₁.polynomial t₁ = s₂.polynomial t₂ :=
      fun values => (known₁.polynomial_eq_iff known₂).mpr fun I => congrArg Value.num (values I)
    have join : s₁.polynomial t₁ = s₂.polynomial t₂ → u₁ = u₂ := by
      intro polynomial
      have numbers := (known₁.polynomial_eq_iff known₂).mp polynomial
      apply canonical₁.eq_of_polynomial canonical₂
      apply (canonical₁.isPolynomial.polynomial_eq_iff canonical₂.isPolynomial).mpr
      intro I
      unfold Store.num at numbers ⊢
      rw [same₁ I, values₂ I, numbers I]
    exact ⟨⟨fun one => denote (equal one), join⟩, ⟨equal, fun values => join (denote values)⟩⟩
  · rintro e rfl
    exact (simplify_polynomial reachable₁ same₁ known₁).of_error run₁
  · rintro e rfl
    exact (simplify_polynomial reachable₂ same₂ known₂).of_error run₂

/-- The products of two constants in both orders. -/
def bothOrders : Terms (TermId × TermId) := do
  let x ← mkVar "x" .int
  let y ← mkVar "y" .int
  let left ← mkApp .mul [x, y]
  let right ← mkApp .mul [y, x]
  return (left, right)

/-- What there is after the products are built. -/
theorem bothOrders_joins : bothOrders.Ensures .initial fun found s => s.size ≤ 6 ∧
    ∃ x y, x ≠ y ∧ s.IsConstant true x ∧ s.IsConstant true y ∧ s.Joins .mul .int [x, y] found.1 ∧
      s.Joins .mul .int [y, x] found.2 := by
  have product (x y : TermId) (s : Store) (left : s.IsConstant true x)
      (right : s.IsConstant true y) : (mkApp .mul [x, y]).Ensures s fun p after =>
        after.Joins .mul .int [x, y] p ∧ after.size ≤ s.size + 1 := by
    have each : ∀ a ∈ [x, y], s.IsPolynomial true a := by
      simpa using ⟨left.isPolynomial, right.isPolynomial⟩
    have built := mkApp_polynomials (.inr (.inr (.inr rfl))) (List.cons_ne_nil x _) each
    have pair : 2 ≤ [x, y].length := Nat.le_refl 2
    exact (built.and (mkApp_size _ _)).imp fun p after _ found =>
      ⟨.many pair found.1.1 found.1.2, found.2⟩
  refine Terms.ensures_bind ((mkVar_node "x" .int).and (mkVar_size _ _)) fun x first _ left => ?_
  refine Terms.ensures_bind ((mkVar_node "y" .int).and (mkVar_size _ _)) fun y second grown right => ?_
  have different : x ≠ y := by
    rintro rfl
    have same := right.1.2
    rw [grown.node_eq left.1.1, left.1.2] at same
    simp at same
  have second_x : second.IsConstant true x :=
    ⟨grown.lt_size left.1.1, "x", (grown.node_eq left.1.1).trans left.1.2⟩
  have second_y : second.IsConstant true y := ⟨right.1.1, "y", right.1.2⟩
  refine Terms.ensures_bind (product x y second second_x second_y) ?_
  intro p third more joins
  refine Terms.ensures_bind (product y x third (second_y.mono more) (second_x.mono more)) ?_
  intro q last most joins'
  have start : Store.initial.size = 2 := rfl
  exact Terms.ensures_pure ⟨by omega, x, y, different, (second_x.mono more).mono most,
    (second_y.mono more).mono most, joins.1.mono most, joins'.1⟩

/-- Products of two constants in both orders are simplified to the same term. -/
theorem simplify_canonizes_case :
    ∃ (s : Store) (p q u : TermId) (r r₁ r₂ : Simplifier) (s₁ s₂ : Store),
      r.config = .canonizing ∧ p ≠ q ∧ ((simplify p).runFrom r).run s = ((.ok u, r₁), s₁) ∧
      ((simplify q).runFrom r).run s₁ = ((.ok u, r₂), s₂) := by
  obtain ⟨p, q, s, size, x, y, different, left, right, first, second⟩ :
      ∃ (p q : TermId) (s : Store), s.size ≤ 6 ∧ ∃ x y, x ≠ y ∧ s.IsConstant true x ∧
        s.IsConstant true y ∧ s.Joins .mul .int [x, y] p ∧ s.Joins .mul .int [y, x] q :=
    ⟨(bothOrders.run .initial).1.1, (bothOrders.run .initial).1.2, (bothOrders.run .initial).2,
      bothOrders_joins⟩
  have known₁ : s.IsPolynomial true p := first.isPolynomial (.inr rfl)
    (by simpa using ⟨left.isPolynomial, right.isPolynomial⟩)
  have known₂ : s.IsPolynomial true q := second.isPolynomial (.inr rfl)
    (by simpa using ⟨right.isPolynomial, left.isPolynomial⟩)
  have distinct : p ≠ q := by
    rintro rfl
    cases first with
    | many _ _ node =>
      cases second with
      | many _ _ node' =>
        rw [node] at node'
        simp only [Node.mk.injEq, List.cons.injEq] at node'
        exact different node'.2.1.1
  obtain ⟨r, config, reachable⟩ : ∃ r : Simplifier, r.config = .canonizing ∧ ∀ s, r.Reachable s :=
    ⟨{ config := .canonizing }, rfl, fun s => .start .canonizing s⟩
  obtain ⟨o₁, r₁, s₁, run₁⟩ : ∃ o₁ r₁ s₁, ((simplify p).runFrom r).run s = ((o₁, r₁), s₁) :=
    ⟨_, _, _, rfl⟩
  obtain ⟨o₂, r₂, s₂, run₂⟩ : ∃ o₂ r₂ s₂, ((simplify q).runFrom r).run s₁ = ((o₂, r₂), s₂) :=
    ⟨_, _, _, rfl⟩
  have grown : s.Extends s₁ := by
    have grows := ((simplify p).runFrom r).grows s
    rwa [run₁] at grows
  obtain ⟨equal, success₁, success₂⟩ := simplify_canonizes (reachable s) config known₁ run₁
    (.refl s₁) (reachable s₁) config (known₂.mono grown) run₂
  have steps : r.config.maxSteps = 18446744073709551615 := by
    rw [config]
    rfl
  have single (z : TermId) (constant : s.IsConstant true z) : s.width z = 1 := by
    obtain ⟨name, node⟩ := constant.node
    rw [Store.width, Store.fold_eq, Store.op, node]
    rfl
  have product {z w t : TermId} (joins : s.Joins .mul .int [z, w] t) (one : s.IsConstant true z)
      (other : s.IsConstant true w) : s.width t = 1 := by
    cases joins with
    | many _ _ node =>
      rw [Store.width, Store.fold_eq, Store.op, Store.args, node]
      show ([z, w].map s.width).prod = 1
      simp [single z one, single w other]
  have width₁ : s.width p = 1 := product first left right
  have width₂ : s₁.width q = 1 :=
    (grown.fold_eq Op.width known₂.inside).trans (product second right left)
  have polynomials : s.polynomial p = s₁.polynomial q := by
    have later : s₁.polynomial q = s.polynomial q := grown.fold_eq Op.polynomial known₂.inside
    rw [later, first.polynomial_mul, second.polynomial_mul]
    exact (List.Perm.swap (s.polynomial y) (s.polynomial x) []).prod_eq
  cases o₁ with
  | error e =>
    have few := (success₁ e rfl).2
    have bound : 6 * (p + 1) ≤ 6 * 6 :=
      Nat.mul_le_mul_left 6 (Nat.le_trans known₁.inside size)
    rw [effort, width₁, steps] at few
    exact absurd (Nat.lt_of_lt_of_le few bound) (by decide)
  | ok u₁ =>
    cases o₂ with
    | error e =>
      have few := (success₂ e rfl).2
      have bound : 6 * (q + 1) ≤ 6 * 6 :=
        Nat.mul_le_mul_left 6 (Nat.le_trans known₂.inside size)
      rw [effort, width₂, steps] at few
      exact absurd (Nat.lt_of_lt_of_le few bound) (by decide)
    | ok u₂ =>
      obtain rfl := (equal u₁ u₂ rfl rfl).1.mpr polynomials
      exact ⟨s, p, q, u₁, r, r₁, r₂, s₁, s₂, config, distinct, run₁, run₂⟩

end Stratagem.Rewriting
