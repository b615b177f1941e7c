import Stratagem.Proofs.Algebraic.Reachable
import Stratagem.Proofs.Term.Semantics

/-!
# Literals in rules

A rule reads the value of a literal, computes with it and writes a literal for the result. The
numerals it computes with denote what the exact arithmetic says; a literal of the integer sort has
an integral value, and an irrational value only arises where there are irrational literals already.
-/
namespace Stratagem

open Store (Extends)

namespace Algebraic

/-- The form of a number with the interval that isolation finds stands for the same number. -/
theorem Represents.canonical {a : Algebraic} {x : ℝ} (known : a.Represents x) :
    a.canonical.Represents x := by
  obtain ⟨roots, located, increasing, exact⟩ := Poly.locating_isolateRoots known.separable
  have all (y : ℝ) : y ∈ roots ↔ y ∈ a.poly.realRoots := by
    rw [exact, Poly.mem_realRoots known.separable.ne_zero]
    exact ⟨And.left, fun root =>
      ⟨root, abs_lt.mp (Poly.abs_lt_rootBound known.separable.ne_zero root)⟩⟩
  have member : x ∈ roots := (all x).mpr known.mem_realRoots
  have position : a.rootIndex = (roots.filter (· < x)).length := by
    have distinct : roots.Nodup := increasing.imp fun less => less.ne
    rw [known.position, ← List.toFinset_card_of_nodup (distinct.filter _), List.toFinset_filter]
    congr 1
    ext y
    simp [all]
  have found := getElem?_length_filter_lt increasing member
  rw [← position] at found
  obtain ⟨inside, same⟩ := List.getElem?_eq_some_iff.mp found
  have within : a.rootIndex < a.poly.isolateRoots.length := located.length_eq.symm ▸ inside
  have interval : a.canonical.interval = a.poly.isolateRoots[a.rootIndex] := by
    rw [Algebraic.canonical, List.getElem?_eq_getElem within, Option.getD_some]
  have isolates : a.canonical.interval.Isolates a.poly x := by
    rw [interval, ← same]
    refine (located.get within inside).resolve_right fun point => ?_
    exact known.irrational ⟨_, point.2.1.trans same⟩
  exact ⟨known.separable, known.primitive, isolates, known.irrational, known.position⟩

end Algebraic

namespace Semantics

/-- The numbers that literals of a sort may have: integers for the integer sort, and rationals
where there are no irrational literals. -/
structure Writes (M : Semantics) (isInt : Bool) (x : ℝ) : Prop where
  /-- The number is an integer if the sort is that of integers. -/
  whole : isInt → ∃ n : ℤ, x = n
  /-- The number is rational, or there are irrational literals. -/
  within : (∃ r : ℚ, x = r) ∨ M.irrationals

/-- A numeral denotes a number that literals of a sort may have. -/
structure Literal (M : Semantics) (isInt : Bool) (n : Numeral) (x : ℝ) : Prop where
  /-- The numeral denotes the number. -/
  represents : n.Represents x
  /-- The number may be written. -/
  writes : M.Writes isInt x

variable {M : Semantics} {s : Store} {t : TermId} {isInt : Bool} {x y : ℝ} {n m : Numeral} {r : ℚ}

namespace Writes

/-- A rational may be written, if it is integral should the sort be that of integers. -/
theorem ofRat (whole : isInt → Rational.isIntegral r) : M.Writes isInt r where
  whole int := ⟨r.num, by exact_mod_cast (Terms.num_of_isIntegral (whole int)).symm⟩
  within := .inl ⟨r, rfl⟩

theorem add (left : M.Writes isInt x) (right : M.Writes isInt y) : M.Writes isInt (x + y) where
  whole int := by
    obtain ⟨i, rfl⟩ := left.whole int
    obtain ⟨j, rfl⟩ := right.whole int
    exact ⟨i + j, by push_cast; rfl⟩
  within := by
    obtain ⟨⟨q, rfl⟩ | allowed, ⟨r, rfl⟩ | allowed⟩ := And.intro left.within right.within
    · exact .inl ⟨q + r, by push_cast; rfl⟩
    all_goals exact .inr allowed

theorem mul (left : M.Writes isInt x) (right : M.Writes isInt y) : M.Writes isInt (x * y) where
  whole int := by
    obtain ⟨i, rfl⟩ := left.whole int
    obtain ⟨j, rfl⟩ := right.whole int
    exact ⟨i * j, by push_cast; rfl⟩
  within := by
    obtain ⟨⟨q, rfl⟩ | allowed, ⟨r, rfl⟩ | allowed⟩ := And.intro left.within right.within
    · exact .inl ⟨q * r, by push_cast; rfl⟩
    all_goals exact .inr allowed

theorem neg (known : M.Writes isInt x) : M.Writes isInt (-x) where
  whole int := by
    obtain ⟨i, rfl⟩ := known.whole int
    exact ⟨-i, by push_cast; rfl⟩
  within := by
    obtain ⟨q, rfl⟩ | allowed := known.within
    · exact .inl ⟨-q, by push_cast; rfl⟩
    · exact .inr allowed

theorem inv (known : M.Writes false x) : M.Writes false x⁻¹ where
  whole := by simp
  within := by
    obtain ⟨q, rfl⟩ | allowed := known.within
    · exact .inl ⟨q⁻¹, by push_cast; rfl⟩
    · exact .inr allowed

end Writes

namespace Literal

/-- A rational literal. -/
theorem ofRat (whole : isInt → Rational.isIntegral r) : M.Literal isInt (.rational r) r :=
  ⟨rfl, .ofRat whole⟩

/-- A numeral within bounds. -/
theorem denotes (known : M.Literal isInt n x) : n.Denotes ⊤ x := ⟨known.represents, le_top⟩

theorem wellFormed (known : M.Literal isInt n x) : n.WellFormed := known.denotes.wellFormed

theorem value_eq (known : M.Literal isInt n x) : n.value = x := known.represents.value_eq

/-- Where there are no irrational literals, the numeral of a literal is rational. -/
theorem exists_rational (known : M.Literal isInt n x) (none : ¬M.irrationals) :
    ∃ r : ℚ, n = .rational r := by
  obtain ⟨q, rfl⟩ := known.writes.within.resolve_right none
  cases n with
  | rational r => exact ⟨r, rfl⟩
  | irrational a => exact absurd ⟨q, rfl⟩ (Algebraic.Represents.irrational known.represents)

/-- The numeral of a literal of the integer sort is rational. -/
theorem isIntegral (known : M.Literal isInt n x) (int : isInt) :
    ∃ r : ℚ, n = .rational r ∧ Rational.isIntegral r := by
  obtain ⟨k, rfl⟩ := known.writes.whole int
  cases n with
  | rational r =>
    refine ⟨r, rfl, ?_⟩
    have same : (r : ℝ) = (k : ℤ) := known.represents
    have same : r = k := by exact_mod_cast same
    simp [same, Rational.isIntegral]
  | irrational a => exact absurd rfl ((Algebraic.Represents.irrational known.represents).ne_int k)

/-- A rational numeral is its number. -/
theorem rational_eq (known : M.Literal isInt (.rational r) x) :
    (r : ℝ) = x ∧ (isInt → Rational.isIntegral r) := by
  refine ⟨known.represents, fun int => ?_⟩
  obtain ⟨q, same, whole⟩ := known.isIntegral int
  cases same
  exact whole

theorem neg (known : M.Literal isInt n x) : M.Literal isInt n.neg (-x) :=
  ⟨known.denotes.neg.represents, known.writes.neg⟩

theorem isZero_iff (known : M.Literal isInt n x) : n.isZero = true ↔ x = 0 :=
  Numeral.isZero_iff known.represents

end Literal

/-- A literal that has a value is a numeral with its value. -/
theorem literal_of_exactNumeral? (known : M.Number s isInt t x)
    (found : s.exactNumeral? t = some n) : M.Literal isInt n x := by
  have same := known.value_eq
  unfold Store.exactNumeral? at found
  split at found
  case h_1 k head =>
    obtain rfl := Option.some.inj found
    rw [M.value_eq known.sorted (by rw [head]; rfl), head] at same
    obtain rfl : ((Rational.ofInt k : ℚ) : ℝ) = x := by
      simpa [Op.interpret, Rational.ofInt] using Value.number.inj same
    exact .ofRat fun _ => by simp [Rational.isIntegral, Rational.ofInt]
  case h_2 r head =>
    obtain rfl := Option.some.inj found
    have fits := M.fits known.sorted (by rw [head]; rfl)
    rw [M.value_eq known.sorted (by rw [head]; rfl), head] at same
    obtain rfl : (r : ℝ) = x := Value.number.inj same
    refine .ofRat fun int => ?_
    rw [head, known.sort_eq, int] at fits
    cases arguments : s.args t <;> rw [arguments] at fits <;> cases fits
  case h_3 a head =>
    obtain rfl := Option.some.inj found
    obtain ⟨allowed, wellFormed, real, value⟩ := M.irrational known.sorted head
    obtain rfl := Value.number.inj (value.symm.trans same)
    refine ⟨wellFormed, fun int => ?_, .inr allowed⟩
    rw [known.sort_eq, int] at real
    cases real
  case h_4 => cases found

/-- The value of a rational literal of a sort, which is integral if the sort is that of integers. -/
theorem Number.of_numeral? (known : M.Number s isInt t x) (literal : s.numeral? t = some r) :
    x = r ∧ (isInt → Rational.isIntegral r) := by
  have found : s.exactNumeral? t = some (.rational r) := by
    unfold Store.numeral? at literal
    unfold Store.exactNumeral?
    split at literal <;> simp_all
  obtain ⟨same, whole⟩ := (literal_of_exactNumeral? known found).rational_eq
  exact ⟨same.symm, whole⟩

/-- A rational literal has a sort of numbers and its value. -/
theorem number_of_numeral? (sorted : M.Sorted s t) (literal : s.numeral? t = some r) :
    ∃ isInt, M.Number s isInt t r ∧ (isInt → Rational.isIntegral r) := by
  have common : (s.op t).isCommon := by
    unfold Store.numeral? at literal
    split at literal <;> simp_all [Op.isCommon]
  have arith : (s.sortOf t).isArith := by
    have fits := M.fits sorted common
    unfold Store.numeral? at literal
    split at literal
    case h_3 => cases literal
    all_goals
      next head =>
        rw [head] at fits
        cases arguments : s.args t with
        | nil => rw [arguments] at fits; rw [show s.sortOf t = _ from fits]; rfl
        | cons => rw [arguments] at fits; exact fits.elim
  obtain ⟨isInt, same⟩ := TermSort.exists_eq_number arith
  obtain ⟨value, whole⟩ := (Number.self sorted same).of_numeral? literal
  exact ⟨isInt, (Number.self sorted same).congr value, whole⟩

/-- The result, if there is one, denotes a value of a sort. -/
def Answers (M : Semantics) (s : Store) (o : Outcome) (sort : TermSort) (v : Value) : Prop :=
  ∀ r, o.result? = some r → M.Denotes s r sort v

variable {after : Store} {sort : TermSort} {v : Value} {o : Outcome}

/-- No result denotes anything. -/
theorem Answers.failed : M.Answers s .failed sort v := by
  simp [Answers, Outcome.result?]

/-- A result denotes what its term denotes. -/
theorem Answers.of_result? (result : o.result? = some t) (known : M.Denotes s t sort v) :
    M.Answers s o sort v := by
  intro r found
  obtain rfl := Option.some.inj (result.symm.trans found)
  exact known

end Semantics

namespace Terms

variable {M : Semantics} {s : Store} {x : ℝ} {n : Numeral}

/-- A literal of the real sort. -/
theorem mkRealNumeral_means (known : M.Literal false n x) :
    (mkRealNumeral n).Ensures s fun t after => M.Number after false t x := by
  cases n with
  | rational r =>
    exact (mkReal_means r).imp fun t after _ built => built.congr known.rational_eq.1
  | irrational a =>
    have represents : a.canonical.Represents x := Algebraic.Represents.canonical known.represents
    have allowed : M.irrationals := known.writes.within.resolve_left fun rational =>
      rational.elim fun r same => represents.irrational ⟨r, same.symm⟩
    have denotes : (Numeral.irrational a.canonical).Denotes ⊤ x := ⟨represents, le_top⟩
    have wellFormed := denotes.wellFormed
    have node : (mkApp (.algebraic a.canonical) []).Ensures s fun t after =>
        t < after.size ∧ after.node t = ⟨.algebraic a.canonical, [], .real⟩ := mkApp_node (by simp)
    refine node.imp fun t after _ found => ?_
    have built := M.build_irrational allowed wellFormed found.1 found.2
    obtain ⟨_, _, real, value⟩ := M.irrational built (by rw [Store.op, found.2])
    refine ⟨built, real, ?_⟩
    rw [value, represents.rootAt_eq.symm]
    rfl

end Terms

namespace Rule

variable {M : Semantics} {s : Store} {t : TermId} {sort : TermSort} {v : Value} {isInt : Bool}
  {config : SimplifierConfig} {x y : ℝ} {n m : Numeral} {α β : Type}
  {post : α → Store → Prop} {final : β → Store → Prop}

/-- A literal. -/
theorem mkNumber_means (known : M.Literal isInt n x) :
    (mkNumber n isInt).Ensures config s fun t after => M.Number after isInt t x := by
  cases n with
  | rational r =>
    obtain ⟨same, whole⟩ := known.rational_eq
    exact ensures_lift ((Terms.mkNumeral_means whole).imp fun t _ _ built => built.congr same)
  | irrational a =>
    cases isInt with
    | true =>
      obtain ⟨r, rational, _⟩ := known.isIntegral rfl
      cases rational
    | false => exact ensures_lift (Terms.mkRealNumeral_means known)

/-- A rule that gives up keeps every meaning. -/
theorem answers_failed :
    (pure .failed : Rule Outcome).Ensures config s fun o after => M.Answers after o sort v :=
  ensures_pure Semantics.Answers.failed

/-- A rule that answers with a term keeps the meaning of the term. -/
theorem answers_with {o : Outcome} (result : o.result? = some t) (known : M.Denotes s t sort v) :
    (pure o : Rule Outcome).Ensures config s fun o after => M.Answers after o sort v :=
  ensures_pure (Semantics.Answers.of_result? result known)

/-- A rule that answers with a term that it builds keeps the meaning of what is built. -/
theorem answers_build {work : Terms TermId} {answer : TermId → Outcome}
    (result : ∀ t, (answer t).result? = some t)
    (built : work.Ensures s fun t after => M.Denotes after t sort v) :
    (liftM work >>= fun t => pure (answer t) : Rule Outcome).Ensures config s
      fun o after => M.Answers after o sort v :=
  ensures_bind (ensures_lift built) fun t _ _ known => answers_with (result t) known

/-- A rule that makes a number of every member of a list. -/
theorem mapM_means {rule : α → Rule TermId} {members : List α} {x : α → ℝ}
    (each : ∀ a ∈ members, ∀ now, s.Extends now →
      (rule a).Ensures config now fun t after => M.Number after isInt t (x a)) :
    (members.mapM rule).Ensures config s fun terms after =>
      List.Forall₂ (M.Number after isInt) terms (members.map x) := by
  refine (ensures_mapM (fun _ _ _ _ more known => known.mono more) members each).imp
    fun terms after _ known => ?_
  exact List.forall₂_map_right_iff.mpr known.flip

/-- The value of a literal, and then a rule for it. The value of an irrational one is not known if
computing with them is not enabled. -/
theorem numeralValue?_bind_means {next : Option Numeral → Rule β} (known : M.Number s isInt t x)
    (some : ∀ n, s.exactNumeral? t = some n → M.Literal isInt n x →
      (next (some n)).Ensures config s final)
    (none : s.numeral? t = none → (next none).Ensures config s final) :
    (numeralValue? t >>= next).Ensures config s final := by
  change (peek _ >>= next).Ensures config s final
  refine ensures_peek_bind ?_
  cases found : s.exactNumeral? t with
  | none =>
    refine none ?_
    unfold Store.exactNumeral? at found
    unfold Store.numeral?
    split at found <;> simp_all
  | some n =>
    have literal := Semantics.literal_of_exactNumeral? known found
    cases n with
    | rational r => exact some _ found literal
    | irrational a =>
      dsimp only
      split
      · exact some _ found literal
      · refine none ?_
        unfold Store.exactNumeral? at found
        unfold Store.numeral?
        split at found <;> simp_all

/-- A rule for the value of a literal, whether it is known or not. -/
theorem numeralValue?_bind_found {next : Option Numeral → Rule β} (known : M.Number s isInt t x)
    (ensured : ∀ found, (∀ n, found = some n → M.Literal isInt n x) →
      (next found).Ensures config s final) : (numeralValue? t >>= next).Ensures config s final :=
  numeralValue?_bind_means known
    (fun n _ literal => ensured (some n) fun _ same => Option.some.inj same ▸ literal)
    fun _ => ensured none (by simp)

/-- The outcome of a computation on numerals, which satisfies what the computation ensures, and
then a rule for it. -/
theorem compute_bind_means {work : Algebraic.Compute α} {post : α → Prop}
    {next : Except AlgebraicError α → Rule β} (ensured : ∀ limits, work.Ensures limits post)
    (ok : ∀ a, post a → (next (.ok a)).Ensures config s final)
    (error : ∀ e, (next (.error e)).Ensures config s final) :
    (compute work >>= next).Ensures config s final := by
  suffices known : ∀ answer, (∀ a, answer = .ok a → post a) →
      (next answer).Ensures config s final by
    unfold compute
    exact ensures_read_bind (ensures_pure_bind (known _ (ensured _ {})))
  intro answer known
  cases answer with
  | ok a => exact ok a (known a rfl)
  | error e => exact error e

/-- The result of a computation on numerals, which satisfies what the computation ensures, and then
a rule for it. -/
theorem evaluate?_bind_means {work : Algebraic.Compute α} {post : α → Prop}
    {next : Option α → Rule β} (ensured : ∀ limits, work.Ensures limits post)
    (some : ∀ a, post a → (next (some a)).Ensures config s final)
    (none : (next none).Ensures config s final) :
    (evaluate? work >>= next).Ensures config s final := by
  unfold evaluate?
  rw [bind_assoc]
  refine compute_bind_means ensured (fun a known => some a known) fun e => ?_
  cases e with
  | degreeExceeded =>
    rw [bind_assoc]
    exact ensures_modify_bind none
  | _ => exact none

/-- The sum of two literals. -/
theorem add_bind_means {next : Option Numeral → Rule β} (left : M.Literal isInt n x)
    (right : M.Literal isInt m y)
    (some : ∀ r, M.Literal isInt r (x + y) → (next (some r)).Ensures config s final)
    (none : (next none).Ensures config s final) :
    (evaluate? (n.add m) >>= next).Ensures config s final :=
  evaluate?_bind_means (fun _ => Numeral.ensures_add left.denotes right.denotes le_top)
    (fun r known => some r ⟨known.represents, left.writes.add right.writes⟩) none

/-- The product of two literals. -/
theorem mul_bind_means {next : Option Numeral → Rule β} (left : M.Literal isInt n x)
    (right : M.Literal isInt m y)
    (some : ∀ r, M.Literal isInt r (x * y) → (next (some r)).Ensures config s final)
    (none : (next none).Ensures config s final) :
    (evaluate? (n.mul m) >>= next).Ensures config s final :=
  evaluate?_bind_means (fun _ => Numeral.ensures_mul left.denotes right.denotes le_top)
    (fun r known => some r ⟨known.represents, left.writes.mul right.writes⟩) none

/-- A known answer to a comparison. -/
theorem decided_means {answer : Bool} {p : Prop} (known : answer = true ↔ p) :
    (decided answer).Ensures config s fun o after => M.Answers after o .bool (.truth p) := by
  refine ensures_modify_bind (answers_with rfl ?_)
  exact (Terms.ofBool_means s answer).congr known

section Assignments

variable {Γ : Signature} {I : Assignment}

/-- A rule keeps the meaning of well-sorted terms if it keeps their meaning in the semantics of an
assignment. -/
theorem ensures_denotes {work : Rule Outcome} (known : work.Ensures config s fun o after =>
    (I.semantics Γ).Answers after o sort v) :
    work.Ensures config s fun o after => o.Denotes after Γ I sort v :=
  known.imp fun _ _ _ answers r found => Assignment.denotes_iff.mp (answers r found)

end Assignments

end Rule
end Stratagem
