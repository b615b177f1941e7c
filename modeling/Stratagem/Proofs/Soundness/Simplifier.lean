import Stratagem.Proofs.Rewriting.Memory
import Stratagem.Proofs.Soundness.Circular
import Stratagem.Proofs.Rewriting.Comparison
import Stratagem.Proofs.Soundness.Replacement

/-!
# The simplifier keeps the value of defined terms

Every rule keeps the sort and the value of a term that is in a language and defined, so the rules
together do, and what they are applied to is such a term: a term whose arguments are replaced by
terms of the same sort and value is in the language and defined still. So the result of a rewriting
stands for its term. Where literals or powers could be taken for others, this depends on what is in
the store at the end.
-/
namespace Stratagem

open Store (Extends)
open Arithmetic Terms Rule

/-- A store suits a valuation of a language: where there are equations, different literals of
one sort have different values, and where there are negative exponents, no exponent is the least
word. -/
structure Valuation.Suits (J : Valuation) (L : Language) (s : Store) : Prop where
  /-- Different literals of one sort have different values. -/
  separates : L.equations → (J.semantics L).Separates s
  /-- No exponent has the least word as its numerator. -/
  word : L.negatives → s.AvoidsLeastWord

/-- A store that has grown suits a valuation only if it did before. -/
theorem Valuation.Suits.of_extends {J : Valuation} {L : Language} {s after : Store}
    (known : J.Suits L after) (grown : s.Extends after) : J.Suits L s where
  separates allowed := (known.separates allowed).of_extends grown
  word allowed := (known.word allowed).of_extends grown

namespace Valuation

open Semantics

variable {J : Valuation} {L : Language} {s after : Store} {config : SimplifierConfig}
  {t a b : TermId} {sort : TermSort} {v : Value} {op : Op} {args : List TermId}

/-- Two arguments of one sort of numbers. -/
theorem numbers_of_sides {M : Semantics} (sorted : ∀ u ∈ [a, b], M.Sorted s u)
    (arith : (s.sortOf a).isArith) (same : s.sortOf b = s.sortOf a) :
    ∃ isInt, M.Number s isInt a (M.num s a) ∧ M.Number s isInt b (M.num s b) := by
  obtain ⟨isInt, sort⟩ := TermSort.exists_eq_number arith
  exact ⟨isInt, .self (sorted a (by simp)) sort, .self (sorted b (by simp)) (same.trans sort)⟩

/-- A term of two integers has the value of its head on two integers. -/
theorem integers_of_view (known : (J.semantics L).Denotes s t sort v)
    (view : s.view t = (op, [a, b]))
    (sorts : sort = .int ∧ s.sortOf a = .int ∧ s.sortOf b = .int) :
    ∃ m n : ℤ, sort = .int ∧ (J.semantics L).Number s true a m ∧
      (J.semantics L).Number s true b n ∧ v = op.evaluate J .int [.number m, .number n] := by
  obtain ⟨_, _, sensible, value⟩ := evaluate_of_view known view
  obtain ⟨rfl, first, second⟩ := sorts
  have left : (J.semantics L).Number s true a _ := .self (sensible a (by simp)) first
  have right : (J.semantics L).Number s true b _ := .self (sensible b (by simp)) second
  obtain ⟨m, same⟩ := left.integral
  obtain ⟨n, same'⟩ := right.integral
  have left := left.congr same
  have right := right.congr same'
  refine ⟨m, n, rfl, left, right, ?_⟩
  rw [value, List.map_cons, List.map_singleton, show s.meaning J a = _ from left.value_eq,
    show s.meaning J b = _ from right.value_eq]

/-- A strict comparison is the negation of the converse one. -/
theorem reduceStrict_means {M : Semantics} {isInt : Bool} {x y : ℝ} (left : M.Number s isInt a x)
    (right : M.Number s isInt b y) :
    (do return .revisit 2 (← mkNot (← mkApp .le [a, b])) : Rule Outcome).Ensures config s
      fun o after => M.Answers after o .bool (.truth (y < x)) := by
  refine ensures_bind (ensures_lift (mkLe_means left right)) fun c middle grown formula => ?_
  exact answers_build (fun _ => rfl) ((mkNot_means formula).imp fun _ _ _ negated =>
    negated.congr not_le)

/-- The rule for the head of a term keeps its value. -/
theorem reduceHead_means (known : (J.semantics L).Denotes s t sort v)
    (word : L.negatives → s.AvoidsLeastWord) :
    (reduceHead t).Ensures config s fun o after => (J.semantics L).Answers after o sort v := by
  unfold reduceHead
  refine ensures_peek_bind ?_
  have self : ∀ isInt, sort = .number isInt →
      v = .number v.num ∧ (J.semantics L).Number s isInt t v.num := by
    rintro isInt rfl
    have arith := TermSort.isArith_number isInt
    have value : v = .number v.num := Value.eq_number arith (known.hasSort (.inr arith))
    exact ⟨value, value ▸ known⟩
  split
  · next args view =>
    obtain ⟨⟨arith, _⟩, _⟩ := known.of_view view rfl
    obtain ⟨isInt, rfl⟩ := TermSort.exists_eq_number arith
    obtain ⟨value, number⟩ := self isInt rfl
    rw [value]
    exact reduceAdd_means number view
  · next args view =>
    obtain ⟨⟨arith, _⟩, _⟩ := known.of_view view rfl
    obtain ⟨isInt, rfl⟩ := TermSort.exists_eq_number arith
    obtain ⟨value, number⟩ := self isInt rfl
    rw [value]
    exact reduceMul_means number view
  · next a view =>
    obtain ⟨⟨arith, same⟩, sorted, rfl⟩ := known.of_view view rfl
    obtain ⟨isInt, rfl⟩ := TermSort.exists_eq_number arith
    obtain ⟨_, number⟩ := self isInt rfl
    exact reduceNeg_means number.isInt_eq (.self (sorted a (by simp)) same)
  · next a b view =>
    obtain ⟨⟨arith, first, second⟩, sorted, rfl⟩ := known.of_view view rfl
    obtain ⟨isInt, rfl⟩ := TermSort.exists_eq_number arith
    obtain ⟨_, number⟩ := self isInt rfl
    exact reduceSub_means number.isInt_eq (.self (sorted a (by simp)) first)
      (.self (sorted b (by simp)) second)
  · next a b view =>
    obtain ⟨admits, defines, sensible, rfl⟩ := evaluate_of_view known view
    obtain ⟨rfl, first, second⟩ := admits.sorts
    exact reduceDiv_means (.self (sensible a (by simp)) first) (.self (sensible b (by simp)) second)
      (defines.quotient a b rfl rfl)
  · next a b view =>
    obtain ⟨m, n, rfl, left, right, rfl⟩ :=
      integers_of_view known view (evaluate_of_view known view).1.sorts
    simpa [Op.evaluate] using reduceIntDiv_means left right
  · next a b view =>
    obtain ⟨m, n, rfl, left, right, rfl⟩ :=
      integers_of_view known view (evaluate_of_view known view).1.sorts
    simpa [Op.evaluate] using reduceMod_means left right
  · next a b view =>
    obtain ⟨m, n, rfl, left, right, rfl⟩ :=
      integers_of_view known view (evaluate_of_view known view).1.sorts
    simpa [Op.evaluate] using reduceRem_means left right
  · next a b view => exact reducePower_means known view word
  · next a b view =>
    obtain ⟨⟨rfl, arith, same⟩, sorted, rfl⟩ := known.of_view view rfl
    obtain ⟨isInt, left, right⟩ := numbers_of_sides sorted arith same
    exact reduceComparison_means (by simp) id left right
  · next a b view =>
    obtain ⟨⟨rfl, arith, same⟩, sorted, rfl⟩ := known.of_view view rfl
    obtain ⟨isInt, left, right⟩ := numbers_of_sides sorted arith same
    exact reduceComparison_means (by simp) id left right
  · next a b view =>
    obtain ⟨⟨rfl, same⟩, sorted, rfl⟩ := known.of_view view rfl
    have allowed : L.equations := (J.semantics L).equates known.sorted
      (by rw [(Store.view_eq_iff.mp view).1]; rfl)
    refine ensures_peek_bind ?_
    split
    · next arith =>
      obtain ⟨isInt, left, right⟩ := numbers_of_sides sorted arith same
      refine (reduceComparison_means (fun _ => allowed) id left right).imp
        fun o after _ result => ?_
      have equation : Relation.eq.Holds ((J.semantics L).num s a) ((J.semantics L).num s b) ↔
          (J.semantics L).value s a = (J.semantics L).value s b := by
        rw [left.value_eq, right.value_eq, Value.number.injEq, Relation.Holds]
      rw [propext equation] at result
      exact result
    · exact answers_failed
  · next a b view =>
    obtain ⟨⟨rfl, arith, same⟩, sorted, rfl⟩ := known.of_view view rfl
    obtain ⟨isInt, left, right⟩ := numbers_of_sides sorted arith same
    exact reduceStrict_means right left
  · next a b view =>
    obtain ⟨⟨rfl, arith, same⟩, sorted, rfl⟩ := known.of_view view rfl
    obtain ⟨isInt, left, right⟩ := numbers_of_sides sorted arith same
    exact reduceStrict_means left right
  · next a view =>
    obtain ⟨admits, _, sensible, rfl⟩ := evaluate_of_view known view
    obtain ⟨rfl, real⟩ := admits.sorts
    exact reduceToInt_means (.self (sensible a (by simp)) real)
  · next a view =>
    obtain ⟨⟨rfl, int | ⟨casts, _⟩⟩, sorted, rfl⟩ := known.of_view view rfl
    · have int : s.sortOf a = .number true := int
      exact reduceToReal_means (.self (sorted a (by simp)) int)
    · exact casts.elim
  · next a view =>
    obtain ⟨admits, _, sensible, rfl⟩ := evaluate_of_view known view
    obtain ⟨rfl, real⟩ := admits.sorts
    exact reduceIsInt_means (admits.equations (.inr rfl)) (.self (sensible a (by simp)) real)
  · next op a _ _ _ _ _ _ view =>
    obtain ⟨admits, defines, sensible, rfl⟩ := evaluate_of_view known view
    have function {f : ℝ → ℝ} (function : op.function? = some f) (other : op.isCommon = false)
        (sorts : op.isCommon ∧ s.Fits ⟨fun _ _ => False, False⟩ sort op [a] ∨
          op.function?.isSome ∧ sort = .real ∧ ∃ b, [a] = [b] ∧ s.sortOf b = .real) :
        (reduceFunction op a).Ensures config s fun o after => (J.semantics L).Answers after o sort
          (op.evaluate J sort ([a].map (s.meaning J))) := by
      obtain ⟨common, _⟩ | ⟨_, rfl, _, same, real⟩ := sorts
      · rw [other] at common
        cases common
      · obtain ⟨rfl, _⟩ := List.cons_eq_cons.mp same
        rw [List.map_singleton, Op.evaluate_of_function? function]
        exact reduceFunction_means (admits.function (by rw [function]; rfl)) function
          (defines.function a rfl) (.self (sensible a (by simp)) real)
    split <;> first | exact function rfl rfl admits.sorts | exact answers_failed
  · exact answers_failed

/-- No operator on bit-vectors has sorts that fit in arithmetic. -/
theorem bitVec?_eq_none (sensible : s.Sensible L J t) : s.bitVec? t = none := by
  have sorts := sensible.admits.sorts
  unfold Store.bitVec?
  split
  · next head =>
    rw [head] at sorts
    simp [Store.SortsFit, Op.isCommon, Op.function?] at sorts
  · rfl

/-- No rule for bit-vectors applies to a term of arithmetic. -/
theorem bitVector_failed (sensible : s.Sensible L J t) :
    (BitVector.reduce t).Ensures config s fun o _ => o = .failed := by
  have sorts {op : Op} {args : List TermId} (view : s.view t = (op, args)) :
      s.SortsFit (s.sortOf t) op args := by
    obtain ⟨rfl, rfl⟩ := Store.view_eq_iff.mp view
    exact sensible.admits.sorts
  unfold BitVector.reduce
  refine ensures_peek_bind ?_
  split
  · next view => simpa [Store.SortsFit, Op.isCommon, Op.function?] using sorts view
  · next view => simpa [Store.SortsFit, Op.isCommon, Op.function?] using sorts view
  · next view => simpa [Store.SortsFit, Op.isCommon, Op.function?] using sorts view
  · next view => simpa [Store.SortsFit, Op.isCommon, Op.function?] using sorts view
  · next op a b _ view =>
    have sorts := sorts view
    have first : s.Sensible L J a := sensible.of_mem_args (by
      rw [(Store.view_eq_iff.mp view).2]
      simp)
    unfold BitVector.reduceBinary
    refine ensures_peek_bind (ensures_peek_bind ?_)
    rw [bitVec?_eq_none first]
    refine ensures_peek_bind ?_
    dsimp only
    split
    all_goals first
      | exact ensures_pure rfl
      | simp [Store.SortsFit, Op.isCommon, Op.function?] at sorts
  · exact ensures_pure rfl

/-- What a rule ensures if the store suits, it ensures if the store that it leaves does. -/
theorem ensures_of_suits {α : Type} {rule : Rule α} {post : α → Store → Prop}
    (ensured : J.Suits L s → rule.Ensures config s post) :
    rule.Ensures config s fun a after => J.Suits L after → post a after := by
  by_cases suits : J.Suits L s
  · exact (ensured suits).imp fun _ _ _ holds _ => holds
  · have anything : rule.Ensures config s fun _ _ => True := fun _ => trivial
    exact anything.imp fun _ _ grown _ suits' => absurd (suits'.of_extends grown) suits

/-- The rules keep the sort and the value of a term in the language that is defined. -/
theorem reduce_means (known : (J.semantics L).Denotes s t sort v) :
    (Rewriting.reduce t).Ensures config s fun o after =>
      J.Suits L after → (J.semantics L).Answers after o sort v := by
  refine Rewriting.reduceBy_ensures (fun _ _ _ => .failed) _ fun family member now grown => ?_
  have known := known.mono grown
  simp only [List.mem_cons, List.not_mem_nil, or_false] at member
  refine ensures_of_suits fun suits => ?_
  obtain rfl | rfl | rfl := member
  · have separate : L.equations → (J.semantics L).logic.Separates now := fun allowed =>
      (suits.separates allowed).logic
    exact Logic.reduce_answers (L := (J.semantics L).logic) separate known
  · exact Arithmetic.reduce_ensures (reduceHead_means known suits.word)
  · refine (bitVector_failed known.sorted).imp fun o after _ failed => ?_
    rw [failed]
    exact .failed

/-- The rules find what takes the place of a term: the result, or the term itself if no rule
applies. -/
theorem reduce_takesPlace (sensible : s.Sensible L J t) :
    (Rewriting.reduce t).Ensures config s fun o after =>
      J.Suits L after → after.TakesPlace L J (o.result?.getD t) t := by
  have atom : (Rewriting.reduce t).Ensures config s fun o _ =>
      (s.op t).isAtom → o.result?.getD t = t := by
    refine ensures_forall fun atom => ?_
    have view : s.view t = (s.op t, []) :=
      Store.view_eq_iff.mpr ⟨rfl, sensible.admits.sorts.args_of_isAtom atom⟩
    refine (Rewriting.reduce_atom view atom).imp fun o _ _ failed => ?_
    rw [failed.1]
    rfl
  have known : (J.semantics L).Denotes s t (s.sortOf t) (s.meaning J t) := .self sensible
  refine ((reduce_means known).and atom).imp fun o after grown result suits => ?_
  have denotes : (J.semantics L).Denotes after (o.result?.getD t) (s.sortOf t)
      (s.meaning J t) := by
    cases found : o.result? with
    | none => exact known.mono grown
    | some u => exact result.1 suits u found
  exact {
    inside := grown.lt_size sensible.inside
    sensible := denotes.sorted
    sort_eq := by rw [denotes.sort_eq, grown.sortOf_eq sensible.inside]
    value_eq := denotes.value_eq.trans (grown.meaning_eq sensible.inside).symm
    atom := fun head => result.2 (by rwa [← grown.op_eq sensible.inside]) }

end Valuation

namespace Rewriting

variable {J : Valuation} {L : Language} {s after : Store} {config : SimplifierConfig}
  {t u : TermId} {levels limit : ℕ} {depth : Option ℕ}

/-- Terms that are visited one after the other are replaced if each visit replaces its term. -/
theorem InTurn.takesPlace {visits : Store → TermId → TermId → Store → Prop}
    {terms results : List TermId} (known : InTurn visits s terms results after)
    (each : ∀ s t u after, visits s t u after → s.Extends after ∧ (J.Suits L after →
      s.Sensible L J t → after.TakesPlace L J u t))
    (suits : J.Suits L after) (sensible : ∀ t ∈ terms, s.Sensible L J t) :
    List.Forall₂ (after.TakesPlace L J) results terms := by
  induction known with
  | nil => exact .nil
  | cons first others rest =>
    obtain ⟨grown, replaces⟩ := each _ _ _ _ first
    have later := others.grown fun s t u after known => (each s t u after known).1
    have first := replaces (suits.of_extends later) (sensible _ (by simp))
    exact .cons (first.mono later) (rest suits fun t member => (sensible t (by simp [member])).mono
      grown)

/-- A visit replaces a term in the language that is defined. -/
theorem Visits.takesPlace (known : Visits config levels depth s t u after) (suits : J.Suits L after)
    (sensible : s.Sensible L J t) : after.TakesPlace L J u t := by
  induction levels generalizing depth s t u after with
  | zero => exact known.elim
  | succ levels lower =>
    rw [Visits] at known
    split at known
    · obtain ⟨rfl, rfl⟩ := known
      exact .refl sensible
    obtain ⟨inside, _, args, first, t', second, outcome, third, visited, rebuilt, reduced,
      finished⟩ := known
    have last := finished.grown fun _ _ _ _ _ => Visits.grown
    have suitsThird := suits.of_extends last
    have suitsSecond := suitsThird.of_extends reduced.grown
    have toFirst := visited.grown fun _ _ _ _ => Visits.grown
    have places := visited.takesPlace (J := J) (L := L)
      (fun _ _ _ _ known => ⟨known.grown, lower known⟩) (suitsSecond.of_extends rebuilt.grown)
      fun a member => sensible.of_mem_args member
    have sensible := sensible.mono toFirst
    rw [← toFirst.args_eq inside] at places
    -- Every part leaves the nodes of the store that it leads to.
    obtain ⟨now, nodes, replaced⟩ :=
      rebuilt.leads.exists_of_ensures (rebuild_takesPlace sensible places)
    have replaced := replaced.mono (Extends.of_nodes_eq nodes.symm)
    obtain ⟨now, nodes, answered⟩ :=
      reduced.leads.exists_of_ensures (Valuation.reduce_takesPlace replaced.sensible)
    have answered := (answered (suitsThird.of_extends (Extends.of_nodes_eq nodes.symm))).mono
      (Extends.of_nodes_eq nodes.symm)
    have answered := answered.trans (replaced.mono reduced.grown)
    cases outcome with
    | failed | done =>
      obtain ⟨rfl, rfl⟩ := finished
      exact answered
    | revisit | revisitAll =>
      exact (lower finished suits answered.sensible).trans (answered.mono last)

/-- The result of simplifying a term in the language that is defined takes its place, whatever the
simplifier did before. -/
theorem takesPlace_of_simplify {r r' : Simplifier} (reachable : r.Reachable s)
    (run : ((simplify t).runFrom r).run s = ((.ok u, r'), after)) (suits : J.Suits L after)
    (sensible : s.Sensible L J t) : after.TakesPlace L J u t := by
  have ensured : (simplify t).Ensures r s _ _ :=
    simplify_ensures (simplifyWithin_visits (recalls_of_reachable reachable))
  obtain ⟨_, _, levels, visits⟩ := ensured.of_ok run
  exact visits.takesPlace suits sensible

end Rewriting
end Stratagem
