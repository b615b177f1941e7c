import Stratagem.Proofs.Rewriting.Literal
import Stratagem.Proofs.Soundness.Simplifier

/-!
# What simplifying keeps

Simplified terms have the sorts and the values of the terms that they come from: terms of integer
division and casts under every valuation, powers and functions under the valuations that
define them. Two things in the store can get in the way. Equations of literals are decided by the
literals, which is right as long as literals that differ stand for numbers that differ; rational
literals always do. And an exponent whose numerator is the least signed word is taken for a small
one.
-/
namespace Stratagem

namespace Language

/-- Equations, and no negative exponents. -/
def arithmetic (irrationals : Prop) : Language where
  equations := True
  irrationals := irrationals
  negatives := False

/-- Functions and irrational literals, and no equations. -/
def functional : Language where
  equations := False
  irrationals := True
  negatives := False

/-- Everything, with or without equations. -/
def full (equations : Prop) : Language where
  equations := equations
  irrationals := True
  negatives := True

end Language

namespace Store

/-- Different literals of one sort of numbers stand for different numbers. -/
def LiteralsApart (s : Store) : Prop :=
  ∀ a b x y, a < s.size → b < s.size → s.exactNumeral? a = some x → s.exactNumeral? b = some y →
    s.sortOf a = s.sortOf b → x.value = y.value → a = b

variable {J : Valuation} {L : Language} {s after : Store} {t u : TermId}

/-- Terms with total heads are defined by every valuation. -/
theorem definedBy_of_isTotal (total : s.Throughout (fun a => (s.op a).isTotal) t)
    (J : Valuation) : s.DefinedBy J t :=
  total.imp fun _ head => defined_of_isTotal head

/-- Where numerals stand for different numbers, different literals of one sort have different
values. -/
theorem LiteralsApart.separates (apart : s.LiteralsApart) : (J.semantics L).Separates s :=
  Valuation.separates_of_numerals fun a b x y left right =>
    apart a b x y left.inside right.inside

end Store

/-- A store suits a valuation if its literals stand for different numbers, as far as there are
irrational ones in equations, and if no exponent is the least word, as far as there are negative
ones. -/
theorem Valuation.suits {J : Valuation} {L : Language} {s : Store}
    (apart : L.equations → L.irrationals → s.LiteralsApart)
    (word : L.negatives → s.AvoidsLeastWord) : J.Suits L s := by
  refine ⟨fun equations => ?_, word⟩
  by_cases irrationals : L.irrationals
  · exact (apart equations irrationals).separates
  · exact separates irrationals s

namespace Rewriting

open Terms Rule

variable {J : Valuation} {L : Language} {s after : Store} {r r' : Simplifier} {t u : TermId}

section Nodes

variable {op : Op} {args : List TermId} {sort : TermSort}

/-- The value of a term whose node is known. -/
theorem meaning_of_getElem? (found : s.nodes[t]? = some ⟨op, args, sort⟩) :
    s.meaning J t = op.evaluate J sort (args.map (s.meaning J)) := by
  rw [Store.meaning_eq, Store.op, Store.sortOf, Store.args, (Store.node_of_getElem? found).2]

/-- A term whose node is admitted is in the language if its arguments are. -/
theorem within_of_getElem? (found : s.nodes[t]? = some ⟨op, args, sort⟩)
    (admits : s.Admits L sort op args) (within : ∀ a ∈ args, s.Within L a) : s.Within L t := by
  obtain ⟨inside, node⟩ := Store.node_of_getElem? found
  refine .intro ⟨inside, ?_⟩ ?_
  · rw [Store.sortOf, Store.op, Store.args, node]
    exact admits
  · rw [Store.args, node]
    exact within

/-- A constant or a literal whose node is admitted is in the language. -/
theorem within_of_leaf (found : s.nodes[t]? = some ⟨op, [], sort⟩)
    (admits : s.Admits L sort op []) : s.Within L t :=
  within_of_getElem? found admits (List.forall_mem_nil _)

/-- What holds of a node and throughout its arguments holds throughout the term. -/
theorem throughout_of_getElem? {P : TermId → Prop} (found : s.nodes[t]? = some ⟨op, args, sort⟩)
    (here : P t) (each : ∀ a ∈ args, s.Throughout P a) : s.Throughout P t := by
  refine .intro here ?_
  rw [Store.args, (Store.node_of_getElem? found).2]
  exact each

/-- A constant, a literal or an application of total heads to such terms is defined. -/
theorem throughout_isTotal (found : s.nodes[t]? = some ⟨op, args, sort⟩) (total : op.isTotal)
    (each : ∀ a ∈ args, s.Throughout (fun a => (s.op a).isTotal) a) :
    s.Throughout (fun a => (s.op a).isTotal) t :=
  throughout_of_getElem? found (by rwa [op_of_getElem? found]) each

end Nodes

/-- The node of a constant. -/
theorem mkVar_getElem? (name : String) (sort : TermSort) :
    (mkVar name sort).Ensures s fun x after => after.nodes[x]? = some ⟨.var name, [], sort⟩ :=
  Terms.ensures_bind_of_all fun _ _ _ => intern_getElem? (by simp)

/-- The value of a rational literal, if the term is one, and then a rule for it. -/
theorem ensures_rational_bind {α : Type} {next : Option Numeral → Rule α}
    {config : SimplifierConfig} {post : α → Store → Prop} (found : Option ℚ)
    (known : s.exactNumeral? t = found.map .rational)
    (ensured : (next (found.map .rational)).Ensures config s post) :
    (numeralValue? t >>= next).Ensures config s post := by
  change (peek _ >>= next).Ensures config s post
  refine ensures_peek_bind ?_
  rw [known]
  cases found <;> exact ensured

/-- The result of simplifying a term in a language that is defined has its sort, is defined and has
its value. -/
theorem meaning_of_simplify (reachable : r.Reachable s) (within : s.Within L t)
    (run : ((simplify t).runFrom r).run s = ((.ok u, r'), after))
    (apart : L.equations → L.irrationals → after.LiteralsApart)
    (word : L.negatives → after.AvoidsLeastWord) (J : Valuation) (defined : s.DefinedBy J t) :
    after.sortOf u = s.sortOf t ∧ after.DefinedBy J u ∧
      after.meaning J u = s.meaning J t := by
  have sensible : s.Sensible L J t := within.and defined
  have places := takesPlace_of_simplify reachable run (Valuation.suits apart word) sensible
  have grown : s.Extends after := by
    have grows := ((simplify t).runFrom r).grows s
    rwa [run] at grows
  refine ⟨?_, places.sensible.imp fun _ here => here.2, ?_⟩
  · rw [places.sort_eq, grown.sortOf_eq sensible.inside]
  · rw [places.value_eq, grown.meaning_eq sensible.inside]

/-- A term of integer division and casts, without division of reals, powers and partial functions,
keeps its sort and under every valuation its value when it is simplified: whatever constants
and quotients and remainders by zero are. If there are irrational literals, different literals must
stand for different numbers. -/
theorem simplify_integerDivision {irrationals : Prop} (reachable : r.Reachable s)
    (within : s.Within (.arithmetic irrationals) t)
    (total : s.Throughout (fun a => (s.op a).isTotal) t)
    (run : ((simplify t).runFrom r).run s = ((.ok u, r'), after))
    (apart : irrationals → after.LiteralsApart) :
    after.sortOf u = s.sortOf t ∧ ∀ J, after.meaning J u = s.meaning J t := by
  have kept := meaning_of_simplify reachable within run (fun _ => apart) False.elim
  have defined := Store.definedBy_of_isTotal total
  exact ⟨(kept ⟨⟨fun _ => True, fun _ => 0, fun _ => 0⟩, id, id, id⟩ (defined _)).1, fun J =>
    (kept J (defined J)).2.2⟩

/-- An integer constant divided by one. -/
def wholeQuotient : Terms TermId := do
  let x ← mkVar "x" .int
  let one ← mkInt 1
  mkApp .intDiv [x, one]

/-- An integer constant divided by one is the constant. -/
theorem simplify_integerDivision_case :
    let t := (wholeQuotient.run .initial).1
    let s := (wholeQuotient.run .initial).2
    ∃ x r' after, s.op x = .var "x" ∧ ((simplify t).runFrom {}).run s = ((.ok x, r'), after) ∧
      after.sortOf x = s.sortOf t ∧ ∀ J, after.meaning J x = s.meaning J t := by
  have built : wholeQuotient.Ensures .initial fun t s => ∃ x one,
      s.nodes[x]? = some ⟨.var "x", [], .int⟩ ∧ s.nodes[one]? = some ⟨.int 1, [], .int⟩ ∧
        s.nodes[t]? = some ⟨.intDiv, [x, one], .int⟩ := by
    refine Terms.ensures_bind (mkVar_getElem? "x" .int) fun x _ _ constant => ?_
    refine Terms.ensures_bind (intern_getElem? (by simp)) fun one s₂ g₂ literal => ?_
    have constant := g₂ _ _ constant
    have inside : ∀ a ∈ [x, one], a < s₂.size := by
      simpa using ⟨(Store.node_of_getElem? constant).1, (Store.node_of_getElem? literal).1⟩
    exact (mkApp_getElem? inside rfl).imp fun t _ g₃ whole =>
      ⟨x, one, g₃ _ _ constant, g₃ _ _ literal, whole⟩
  obtain ⟨x, one, constant, literal, whole⟩ := built
  generalize (wholeQuotient.run .initial).1 = t at whole ⊢
  generalize (wholeQuotient.run .initial).2 = s at constant literal whole ⊢
  have ruled : (reduce t).Ensures {} s fun o after => ∃ u, o = .done u ∧ u = x := by
    refine (reduce_of_arithmetic (connective_silent (view_of_getElem? whole) rfl) ?_).imp
      fun _ _ _ result => result.2
    unfold Arithmetic.reduceHead Arithmetic.reduceIntDiv
    refine ensures_peek_bind ?_
    rw [view_of_getElem? whole]
    refine ensures_peek_bind ?_
    have divisor : Arithmetic.intValue? s one = some 1 := by
      rw [Arithmetic.intValue?, Store.numeral?, op_of_getElem? literal]
      rfl
    have dividend : Arithmetic.intValue? s x = none := by
      rw [Arithmetic.intValue?, Store.numeral?, op_of_getElem? constant]
      rfl
    rw [divisor]
    refine ensures_peek_bind ?_
    rw [dividend]
    exact ensures_pure ⟨rfl, x, rfl, rfl⟩
  obtain ⟨_, r', after, run, rfl⟩ := (simplify_leaves whole (by
    simpa using ⟨atomic_of_getElem? constant rfl, atomic_of_getElem? literal rfl⟩) (by simp)
    ruled).exists_ok
  have within : s.Within (.arithmetic False) t := by
    refine within_of_getElem? whole (Store.admits_of_isFree rfl ?_) ?_
    · exact ⟨rfl, sortOf_of_getElem? constant, sortOf_of_getElem? literal⟩
    · simpa using ⟨within_of_leaf constant (Store.admits_of_isFree rfl (.inr rfl)),
        within_of_leaf literal (Store.admits_of_isFree rfl (.inl ⟨rfl, rfl⟩))⟩
  have total : s.Throughout (fun a => (s.op a).isTotal) t := by
    refine throughout_isTotal whole rfl ?_
    simpa using ⟨throughout_isTotal constant rfl (by simp),
      throughout_isTotal literal rfl (by simp)⟩
  refine ⟨_, r', after, ?_, run, simplify_integerDivision (.start {} s) within total run False.elim⟩
  exact op_of_getElem? constant

/-- A term with powers keeps its sort and its value when it is simplified, under every
valuation that defines it, and the result is defined as well. No exponent may be the least word,
and if there are equations, different literals must stand for different numbers. -/
theorem simplify_power {equations : Prop} (reachable : r.Reachable s)
    (within : s.Within (.full equations) t)
    (run : ((simplify t).runFrom r).run s = ((.ok u, r'), after)) (word : after.AvoidsLeastWord)
    (apart : equations → after.LiteralsApart) (J : Valuation) (defined : s.DefinedBy J t) :
    after.sortOf u = s.sortOf t ∧ after.DefinedBy J u ∧
      after.meaning J u = s.meaning J t :=
  meaning_of_simplify reachable within run (fun equations _ => apart equations) (fun _ => word) J
    defined

/-- The square root of four. -/
def rootOfFour : Terms TermId := do
  let four ← intern ⟨.real 4, [], .real⟩
  let half ← intern ⟨.real (1 / 2), [], .real⟩
  intern ⟨.power, [four, half], .real⟩

/-- The nodes of the square root. -/
theorem rootOfFour_getElem? : rootOfFour.Ensures .initial fun t s => s.AvoidsLeastWord ∧
    ∃ four half, s.nodes[four]? = some ⟨.real 4, [], .real⟩ ∧
      s.nodes[half]? = some ⟨.real (1 / 2), [], .real⟩ ∧
        s.nodes[t]? = some ⟨.power, [four, half], .real⟩ := by
  have start : Store.initial.AvoidsLeastWord := by
    intro t b e y inside view _
    have two : t = 0 ∨ t = 1 := by
      have inside : t < 2 := inside
      omega
    obtain rfl | rfl := two <;> cases view
  refine Terms.ensures_bind ((intern_getElem? (by simp)).and
    (start.intern (by simp) fun power => by cases power)) ?_
  rintro four s₁ _ ⟨base, avoids⟩
  refine Terms.ensures_bind ((intern_getElem? (by simp)).and
    (avoids.intern (by simp) fun power => by cases power)) ?_
  rintro half s₂ g₂ ⟨exponent, avoids⟩
  have base := g₂ _ _ base
  have inside : ∀ a ∈ [four, half], a < s₂.size := by
    simpa using ⟨(Store.node_of_getElem? base).1, (Store.node_of_getElem? exponent).1⟩
  have word : ∀ b e y, [four, half] = [b, e] → s₂.numeral? e = some y →
      y.num ≠ Arithmetic.leastWord := by
    rintro _ _ y ⟨⟩ found
    rw [Store.numeral?, op_of_getElem? exponent] at found
    obtain rfl := Option.some.inj found
    decide +kernel
  refine ((intern_getElem? inside).and (avoids.intern inside fun _ => word)).imp ?_
  rintro t s₃ g₃ ⟨whole, avoids⟩
  exact ⟨avoids, four, half, g₃ _ _ base, g₃ _ _ exponent, whole⟩

/-- The rules find the square root. -/
theorem reduce_rootOfFour {four half : TermId} (avoids : s.AvoidsLeastWord)
    (base : s.nodes[four]? = some ⟨.real 4, [], .real⟩)
    (exponent : s.nodes[half]? = some ⟨.real (1 / 2), [], .real⟩)
    (whole : s.nodes[t]? = some ⟨.power, [four, half], .real⟩) :
    (reduce t).Ensures {} s fun o after =>
      ∃ u, o = .done u ∧ after.op u = .real 2 ∧ after.AvoidsLeastWord := by
  refine (reduce_of_arithmetic (connective_silent (view_of_getElem? whole) rfl) ?_).imp
    fun _ _ _ result => result.2
  have literal : s.numeral? four = some 4 := by rw [Store.numeral?, op_of_getElem? base]
  unfold Arithmetic.reduceHead Arithmetic.reducePower
  refine ensures_peek_bind ?_
  rw [view_of_getElem? whole]
  refine ensures_peek_bind (ensures_peek_bind ?_)
  rw [Store.isOne, literal, if_neg (by decide)]
  refine ensures_peek_bind ?_
  rw [Store.numeral?, op_of_getElem? exponent]
  refine ensures_peek_bind ?_
  rw [Store.isZero, literal, if_neg (by norm_num), if_neg (by norm_num), if_neg (by decide)]
  have known : s.exactNumeral? four = some (.rational 4) := by
    rw [Store.exactNumeral?, op_of_getElem? base]
  refine ensures_rational_bind (some 4) known ?_
  have folded : Arithmetic.rationalPower? 4 (1 / 2 : ℚ).num (1 / 2 : ℚ).den = some 2 := by
    decide +kernel
  have real : s.isInt t = false := by
    rw [Store.isInt, sortOf_of_getElem? whole]
    rfl
  refine ensures_read_bind ?_
  dsimp only
  rw [if_neg (by decide +kernel), if_neg (by simp [real]), if_neg (by decide +kernel)]
  simp only [Numeral.asRational?, Option.bind_some, folded, real]
  refine ensures_bind (ensures_lift ((intern_getElem? (by simp)).and
    (avoids.intern (by simp) fun power => by cases power))) ?_
  rintro u _ _ ⟨found, avoids⟩
  exact ensures_pure ⟨rfl, u, rfl, op_of_getElem? found, avoids⟩

/-- The square root of four is two. -/
theorem simplify_power_case :
    let t := (rootOfFour.run .initial).1
    let s := (rootOfFour.run .initial).2
    ∃ u r' after, ((simplify t).runFrom {}).run s = ((.ok u, r'), after) ∧ after.op u = .real 2 ∧
      after.AvoidsLeastWord ∧ ∀ J : Valuation, after.meaning J u = s.meaning J t := by
  obtain ⟨avoids, four, half, base, exponent, whole⟩ := rootOfFour_getElem?
  generalize (rootOfFour.run .initial).1 = t at whole ⊢
  generalize (rootOfFour.run .initial).2 = s at avoids base exponent whole ⊢
  obtain ⟨u, r', after, run, two, avoids⟩ := (simplify_leaves whole (by
    simpa using ⟨atomic_of_getElem? base rfl, atomic_of_getElem? exponent rfl⟩) (by simp)
    (reduce_rootOfFour avoids base exponent whole)).exists_ok
  have real := sortOf_of_getElem? base
  have literal : s.numeral? half = some (1 / 2) := by
    rw [Store.numeral?, op_of_getElem? exponent]
  have leaf {a : TermId} {v : ℚ} (found : s.nodes[a]? = some ⟨.real v, [], .real⟩) :
      s.Within (.full False) a :=
    within_of_leaf found (Store.admits_of_isFree rfl (.inl ⟨rfl, rfl⟩))
  have within : s.Within (.full False) t := by
    refine within_of_getElem? whole
      ⟨?_, by simp [Op.isEquation], by simp, by simp [Op.function?], ?_⟩
      (by simpa using ⟨leaf base, leaf exponent⟩)
    · refine ⟨by rw [real]; rfl, by rw [sortOf_of_getElem? exponent]; rfl, ?_⟩
      simp [Store.arithJoin, Store.isInt, real]
    · rintro _ _ _ ⟨⟩
      exact .inr ⟨1 / 2, literal, fun _ => real, fun negative => absurd negative (by norm_num),
        fun _ => trivial⟩
  refine ⟨u, r', after, run, two, avoids, fun J => ?_⟩
  have total {a : TermId} {v : ℚ} (found : s.nodes[a]? = some ⟨.real v, [], .real⟩) :
      s.DefinedBy J a :=
    Store.definedBy_of_isTotal (throughout_isTotal found rfl (by simp)) J
  have defined : s.DefinedBy J t := by
    refine throughout_of_getElem? whole ?_ (by simpa using ⟨total base, total exponent⟩)
    rw [op_of_getElem? whole, args_of_getElem? whole]
    refine ⟨by simp, ?_, by simp⟩
    rintro _ _ _ ⟨⟩ r found
    obtain rfl := Option.some.inj (literal.symm.trans found)
    have four : (s.meaning J four).num = 4 := by
      rw [meaning_of_getElem? base]
      simp [Op.evaluate, Op.function?, Op.interpret]
    rw [four]
    norm_num
  exact (simplify_power (.start {} s) within run avoids False.elim J defined).2.2

/-- A term with functions keeps its sort and its value when it is simplified, under every
valuation under which all functions in it are applied inside their domains, and the result is
defined as well. -/
theorem simplify_function (reachable : r.Reachable s) (within : s.Within .functional t)
    (run : ((simplify t).runFrom r).run s = ((.ok u, r'), after)) (J : Valuation)
    (defined : s.DefinedBy J t) : after.sortOf u = s.sortOf t ∧ after.DefinedBy J u ∧
      after.meaning J u = s.meaning J t :=
  meaning_of_simplify reachable within run False.elim False.elim J defined

/-- The inverse sine of one. -/
def inverseSine : Terms TermId := do
  let one ← intern ⟨.real 1, [], .real⟩
  intern ⟨.asin, [one], .real⟩

/-- A multiple of pi is a product. -/
theorem op_of_mkPiTimes {k : ℚ} {config : SimplifierConfig} (nonzero : k ≠ 0) (other : k ≠ 1) :
    (Arithmetic.mkPiTimes k).Ensures config s fun u after => after.op u = .mul := by
  unfold Arithmetic.mkPiTimes
  rw [if_neg nonzero]
  have sort : s.inferSort .pi [] = .real := rfl
  refine ensures_bind (ensures_lift (mkApp_getElem? (by simp) sort)) fun pi s₁ _ constant => ?_
  rw [if_neg other]
  refine ensures_bind (ensures_lift (intern_getElem? (by simp))) fun c s₂ g₂ literal => ?_
  have constant := g₂ _ _ constant
  have inside : ∀ a ∈ [c, pi], a < s₂.size := by
    simpa using ⟨(Store.node_of_getElem? literal).1, (Store.node_of_getElem? constant).1⟩
  have real : s₂.inferSort .mul [c, pi] = .real := by
    simp [Store.inferSort, Store.arithJoin, Store.isInt, sortOf_of_getElem? constant]
  exact ensures_lift ((mkApp_getElem? inside real).imp fun _ _ _ => op_of_getElem?)

/-- The rules find half of pi. -/
theorem reduce_inverseSine {one : TermId} (literal : s.nodes[one]? = some ⟨.real 1, [], .real⟩)
    (whole : s.nodes[t]? = some ⟨.asin, [one], .real⟩) :
    (reduce t).Ensures {} s fun o after => ∃ u, o = .done u ∧ after.op u = .mul := by
  refine (reduce_of_arithmetic (connective_silent (view_of_getElem? whole) rfl) ?_).imp
    fun _ _ _ result => result.2
  unfold Arithmetic.reduceHead
  refine ensures_peek_bind ?_
  rw [view_of_getElem? whole]
  -- One is no multiple of pi, so the table of inverse sines is the first to answer.
  unfold Arithmetic.reduceFunction Arithmetic.firstOutcome Arithmetic.firstOutcome
  have silent : Arithmetic.piMultiple? s one = none := by
    rw [Arithmetic.piMultiple?, Store.isZero, Store.numeral?, op_of_getElem? literal,
      view_of_getElem? literal]
    simp
  have found : (Arithmetic.reduceAtNumeral? .asin one).Ensures {} s fun found after =>
      ∃ u, found = some (.done u) ∧ after.op u = .mul := by
    unfold Arithmetic.reduceAtNumeral?
    refine ensures_peek_bind ?_
    rw [Store.numeral?, op_of_getElem? literal]
    change (Arithmetic.atNumeral? .asin 1).Ensures _ _ _
    have half : Arithmetic.asinOverPi? 1 = some (1 / 2) := by decide +kernel
    unfold Arithmetic.atNumeral?
    dsimp only
    rw [half, Option.mapM_some, map_bind]
    refine ensures_bind (op_of_mkPiTimes (by norm_num) (by norm_num)) fun u _ _ product => ?_
    exact ensures_pure ⟨u, rfl, product⟩
  have nothing : (Arithmetic.reduceAtPi? .asin one).Ensures {} s fun found after =>
      found = none ∧ after = s := by
    unfold Arithmetic.reduceAtPi?
    refine ensures_peek_bind ?_
    rw [silent]
    exact ensures_pure ⟨rfl, rfl⟩
  refine ensures_bind nothing ?_
  rintro _ _ _ ⟨rfl, rfl⟩
  refine ensures_bind found ?_
  rintro _ _ _ ⟨u, rfl, product⟩
  exact ensures_pure ⟨rfl, u, rfl, product⟩

/-- The inverse sine of one is half of pi. -/
theorem simplify_function_case :
    let t := (inverseSine.run .initial).1
    let s := (inverseSine.run .initial).2
    ∃ u r' after, ((simplify t).runFrom {}).run s = ((.ok u, r'), after) ∧ after.op u = .mul ∧
      ∀ J : Valuation, after.meaning J u = s.meaning J t := by
  have built : inverseSine.Ensures .initial fun t s => ∃ one,
      s.nodes[one]? = some ⟨.real 1, [], .real⟩ ∧ s.nodes[t]? = some ⟨.asin, [one], .real⟩ := by
    refine Terms.ensures_bind (intern_getElem? (by simp)) fun one s₁ _ literal => ?_
    have inside : ∀ a ∈ [one], a < s₁.size := by
      simpa using (Store.node_of_getElem? literal).1
    exact (intern_getElem? inside).imp fun t _ g₂ whole => ⟨one, g₂ _ _ literal, whole⟩
  obtain ⟨one, literal, whole⟩ := built
  generalize (inverseSine.run .initial).1 = t at whole ⊢
  generalize (inverseSine.run .initial).2 = s at literal whole ⊢
  obtain ⟨u, r', after, run, product⟩ := (simplify_leaves whole (by
    simpa using atomic_of_getElem? literal rfl) (by simp)
    (reduce_inverseSine literal whole)).exists_ok
  have within : s.Within .functional t := by
    refine within_of_getElem? whole
      (Store.admits_of_function rfl (sortOf_of_getElem? literal) trivial) ?_
    simpa using within_of_leaf literal (Store.admits_of_isFree rfl (.inl ⟨rfl, rfl⟩))
  refine ⟨u, r', after, run, product, fun J => ?_⟩
  have defined : s.DefinedBy J t := by
    refine throughout_of_getElem? whole ?_ ?_
    · rw [op_of_getElem? whole, args_of_getElem? whole]
      refine Store.defined_of_function (by simp) (by simp) ?_
      rintro _ ⟨⟩
      have value : (s.meaning J one).num = 1 := by
        rw [meaning_of_getElem? literal]
        simp [Op.evaluate, Op.function?, Op.interpret]
      rw [value]
      exact ⟨by norm_num, le_refl 1⟩
    · rintro _ (_ | ⟨_, ⟨⟩⟩)
      exact Store.definedBy_of_isTotal (throughout_isTotal literal rfl (by simp)) J
  exact (simplify_function (.start {} s) within run J defined).2.2

end Rewriting
end Stratagem
