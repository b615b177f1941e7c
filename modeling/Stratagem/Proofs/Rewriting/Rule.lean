import Stratagem.Proofs.Term.Building

/-!
# What rules keep

A rule keeps the meaning of a term if its result, should it have one, denotes the same value of
the same sort. Here are the steps that all rules take: answering with a term, building one, and
computing with literals, which are rational in a well-sorted term.
-/
namespace Stratagem

variable {s after : Store} {Γ : Signature} {I : Assignment} {t : TermId} {sort : TermSort}
  {v : Value} {α β : Type} {config : SimplifierConfig}

/-- The result, if there is one, denotes a value of a sort. -/
def Outcome.Denotes (o : Outcome) (s : Store) (Γ : Signature) (I : Assignment) (sort : TermSort)
    (v : Value) : Prop :=
  ∀ r, o.result? = some r → s.Denotes Γ I r sort v

namespace Outcome

/-- No result denotes anything. -/
theorem denotes_failed : failed.Denotes s Γ I sort v := nofun

/-- A result denotes what its term denotes. -/
theorem denotes_of_result? {o : Outcome} (result : o.result? = some t)
    (known : s.Denotes Γ I t sort v) : o.Denotes s Γ I sort v := by
  intro r found
  obtain rfl := Option.some.inj (result.symm.trans found)
  exact known

end Outcome

namespace Store

/-- Head and arguments of a term make up its view. -/
theorem view_eq_iff {op : Op} {args : List TermId} :
    s.view t = (op, args) ↔ s.op t = op ∧ s.args t = args := Prod.mk_inj

/-- A term that denotes a value fits its arguments, which are well-sorted, and its value is that of
its head. -/
theorem Denotes.of_view {op : Op} {args : List TermId} (known : s.Denotes Γ I t sort v)
    (view : s.view t = (op, args)) : s.Fits Γ sort op args ∧ (∀ a ∈ args, s.WellSorted Γ a) ∧
      v = op.denote I sort (args.map (s.value I)) := by
  obtain ⟨rfl, rfl⟩ := view_eq_iff.mp view
  obtain ⟨sorted, rfl, rfl⟩ := known
  exact ⟨sorted.fits, fun a => sorted.of_mem_args, s.value_eq I t⟩

namespace Formula

variable {p : Prop} {a : TermId}

/-- The truth value of a literal. -/
theorem of_bool {b : Bool} {args : List TermId} (known : s.Formula Γ I t p)
    (view : s.view t = (.bool b, args)) : p ↔ b = true := by
  obtain ⟨_, _, value⟩ := known.of_view view
  exact iff_of_eq (Value.truth.inj value)

/-- The argument of a negation. -/
theorem of_not (known : s.Formula Γ I t p) (view : s.view t = (.not, [a])) :
    ∃ q, s.Formula Γ I a q ∧ (p ↔ ¬q) := by
  obtain ⟨fits, sorted, value⟩ := known.of_view view
  refine ⟨s.holds I a, self (sorted a (by simp)) fits.2 I, ?_⟩
  exact iff_of_eq (Value.truth.inj value)

end Formula

/-- The literals of well-sorted terms are rational. -/
theorem WellSorted.exactNumeral?_eq (sorted : s.WellSorted Γ t) :
    s.exactNumeral? t = (s.numeral? t).map .rational := by
  have fits := sorted.fits
  unfold exactNumeral? numeral?
  split
  case h_3 a irrational =>
    rw [irrational] at fits
    cases s.args t <;> exact fits.elim
  all_goals grind

/-- A literal denotes its value. -/
theorem number_of_numeral? {r : ℚ} (sorted : s.WellSorted Γ t) (literal : s.numeral? t = some r)
    (I : Assignment) : ∃ isInt, s.Number Γ I isInt t r ∧ (isInt → Rational.isIntegral r) := by
  have fits := sorted.fits
  have value := s.value_eq I t
  unfold numeral? at literal
  split at literal
  case h_1 n head =>
    obtain rfl := Option.some.inj literal
    rw [head] at fits value
    refine ⟨true, ⟨sorted, ?_, ?_⟩, fun _ => ?_⟩
    · cases empty : s.args t with
      | nil => rw [empty] at fits; exact fits
      | cons => rw [empty] at fits; exact fits.elim
    · rw [value]
      simp [Op.denote, Op.interpret, Rational.ofInt]
    · simp [Rational.isIntegral, Rational.ofInt]
  case h_2 q head =>
    obtain rfl := Option.some.inj literal
    rw [head] at fits value
    refine ⟨false, ⟨sorted, ?_, ?_⟩, (by simp)⟩
    · cases empty : s.args t with
      | nil => rw [empty] at fits; exact fits
      | cons => rw [empty] at fits; exact fits.elim
    · rw [value]
      rfl
  case h_3 => cases literal

namespace Number

variable {x : ℝ} {isInt : Bool} {r : ℚ}

/-- A literal of a sort denotes its value, which is integral if the sort is. -/
theorem of_numeral? (known : s.Number Γ I isInt t x) (literal : s.numeral? t = some r) :
    x = r ∧ (isInt → Rational.isIntegral r) := by
  obtain ⟨other, number, integral⟩ := number_of_numeral? known.sorted literal I
  have same : isInt = other := by rw [← known.isInt_eq, number.isInt_eq]
  subst same
  exact ⟨by rw [← known.num_eq, number.num_eq], integral⟩

end Number
end Store

/-- All terms are numbers of one sort. -/
def Store.Numbers (s : Store) (Γ : Signature) (isInt : Bool) (terms : List TermId) : Prop :=
  ∀ t ∈ terms, s.WellSorted Γ t ∧ s.sortOf t = .number isInt

namespace Store

variable {s after : Store} {Γ : Signature} {I : Assignment} {isInt : Bool} {terms : List TermId}
  {xs : List ℝ}

namespace Numbers

/-- Numbers stay numbers when the store grows. -/
theorem mono (known : s.Numbers Γ isInt terms) (grown : s.Extends after) :
    after.Numbers Γ isInt terms := by
  intro t member
  obtain ⟨sorted, same⟩ := known t member
  exact ⟨sorted.mono grown, by rw [grown.sortOf_eq sorted.inside, same]⟩

/-- Numbers denote their values. -/
theorem forall₂ (known : s.Numbers Γ isInt terms) (I : Assignment) :
    List.Forall₂ (s.Number Γ I isInt) terms (terms.map (s.num I)) :=
  List.forall₂_map_right_iff.mpr (List.forall₂_same.mpr fun t member =>
    .self (known t member).1 (known t member).2 I)

end Numbers

/-- A well-sorted term is no irrational literal. -/
theorem WellSorted.algebraic?_eq {t : TermId} (sorted : s.WellSorted Γ t) :
    s.algebraic? t = none := by
  have fits := sorted.fits
  unfold algebraic?
  split
  · next a head =>
    rw [head] at fits
    cases s.args t <;> exact fits.elim
  · rfl

/-- The sort of a number decides whether it is an integer. -/
theorem Numbers.isInt_eq {t : TermId} (same : s.sortOf t = .number isInt) : s.isInt t = isInt := by
  rw [Store.isInt, same]
  cases isInt <;> rfl

end Store

namespace Numeral

/-- The sum of rationals is exact. -/
theorem add_rational (r q : ℚ) : add (rational r) (rational q) = pure (rational (r + q)) := rfl

/-- The product of rationals is exact. -/
theorem mul_rational (r q : ℚ) : mul (rational r) (rational q) = pure (rational (r * q)) := by
  unfold mul
  split
  · next zero =>
    have none : r * q = 0 := by simpa [isZero] using zero
    rw [none]
  · rfl

end Numeral

namespace Rule

variable {post : α → Store → Prop} {final : β → Store → Prop}

/-- A rule that gives up keeps every meaning. -/
theorem ensures_failed :
    (pure .failed : Rule Outcome).Ensures config s fun o after => o.Denotes after Γ I sort v :=
  ensures_pure Outcome.denotes_failed

/-- A rule that answers with a term keeps the meaning of the term. -/
theorem ensures_answer {o : Outcome} (result : o.result? = some t)
    (known : s.Denotes Γ I t sort v) :
    (pure o : Rule Outcome).Ensures config s fun o after => o.Denotes after Γ I sort v :=
  ensures_pure (Outcome.denotes_of_result? result known)

/-- A rule that answers with a term that it builds keeps the meaning of what is built. -/
theorem ensures_build {work : Terms TermId} {answer : TermId → Outcome}
    (result : ∀ t, (answer t).result? = some t)
    (built : work.Ensures s fun t after => after.Denotes Γ I t sort v) :
    (liftM work >>= fun t => pure (answer t) : Rule Outcome).Ensures config s
      fun o after => o.Denotes after Γ I sort v :=
  ensures_bind (ensures_lift built) fun t _ _ known => ensures_answer (result t) known

/-- A rule that makes a number of every member of a list. -/
theorem ensures_mapM_number {rule : α → Rule TermId} {members : List α} {x : α → ℝ} {isInt : Bool}
    (each : ∀ a ∈ members, ∀ now, s.Extends now →
      (rule a).Ensures config now fun t after => after.Number Γ I isInt t (x a)) :
    (members.mapM rule).Ensures config s fun terms after =>
      List.Forall₂ (after.Number Γ I isInt) terms (members.map x) := by
  refine (ensures_mapM (fun _ _ _ _ more known => known.mono more) members each).imp
    fun terms after _ known => ?_
  exact List.forall₂_map_right_iff.mpr known.flip

/-- The value of a literal of a well-sorted term, and then a rule for it. -/
theorem ensures_numeralValue?_bind {next : Option Numeral → Rule β} (sorted : s.WellSorted Γ t)
    (ensured : (next ((s.numeral? t).map .rational)).Ensures config s final) :
    (numeralValue? t >>= next).Ensures config s final := by
  change (peek _ >>= next).Ensures config s final
  refine ensures_peek_bind ?_
  rw [sorted.exactNumeral?_eq]
  cases found : s.numeral? t <;> simpa [found] using ensured

/-- A computation on numerals that has a result, and then a rule for it. -/
theorem ensures_evaluate?_bind {a : α} {next : Option α → Rule β}
    (ensured : (next (some a)).Ensures config s final) :
    (evaluate? (pure a) >>= next).Ensures config s final := ensured

end Rule
end Stratagem
