import Stratagem.Proofs.Algebraic.Value
import Stratagem.Proofs.Rewriting.Rule
import Stratagem.Proofs.Term.Logic

/-!
# Semantics of terms

A semantics says which terms have a value and what it is. Truth values, rational literals,
connectives, comparisons, sums, products and casts of integers are read alike by all of them
(`Op.isCommon`); a semantics differs from another one in the constants and in the further operators
that it knows. What the rules for the common heads do is shown once for all semantics: here are the
terms that they build, with their values.
-/
namespace Stratagem

open Store (Extends)

namespace Op

/-- The heads that all semantics read alike: truth values, rational literals, connectives,
comparisons, sums, products and casts of integers. -/
def isCommon : Op → Bool
  | bool _ | int _ | real _ | not | and | or | implies | xor | ite | eq | distinct | neg | add | sub
  | mul | le | lt | ge | gt | toReal => true
  | _ => false

/-- Equations, and the connectives that are written by equations. -/
def isEquation : Op → Bool
  | eq | distinct | xor => true
  | _ => false

end Op

/-- A sort of truth values or numbers. -/
def TermSort.isScalar (sort : TermSort) : Prop := sort = .bool ∨ sort.isArith

/-- The terms that have a value, and their values. -/
structure Semantics where
  /-- The terms that have a value. -/
  Sorted : Store → TermId → Prop
  /-- The value of a term. -/
  value : Store → TermId → Value
  /-- Whether a cast may stand before a real. -/
  realCasts : Prop
  /-- Whether there are equations. -/
  equations : Prop
  /-- Whether there are irrational literals. -/
  irrationals : Prop
  /-- The terms are in the store. -/
  inside {s : Store} {t : TermId} : Sorted s t → t < s.size
  /-- A term keeps having a value when the store grows. -/
  mono {s after : Store} {t : TermId} : Sorted s t → s.Extends after → Sorted after t
  /-- A term keeps its value when the store grows. -/
  value_mono {s after : Store} {t : TermId} : Sorted s t → s.Extends after →
    value after t = value s t
  /-- Truth values and numbers are of the sort of their term. -/
  hasSort {s : Store} {t : TermId} : Sorted s t → (s.sortOf t).isScalar →
    (value s t).HasSort (s.sortOf t)
  /-- A term with a common head is well-sorted. -/
  fits {s : Store} {t : TermId} : Sorted s t → (s.op t).isCommon →
    s.Fits ⟨fun _ _ => False, realCasts⟩ (s.sortOf t) (s.op t) (s.args t)
  /-- There are equations only where they are allowed. -/
  equates {s : Store} {t : TermId} : Sorted s t → (s.op t).isEquation → equations
  /-- The arguments of a common head have values. -/
  of_mem_args {s : Store} {t a : TermId} : Sorted s t → (s.op t).isCommon → a ∈ s.args t →
    Sorted s a
  /-- The value of a term with a common head is that of the head on the values of the arguments. -/
  value_eq {s : Store} {t : TermId} : Sorted s t → (s.op t).isCommon →
    value s t = (s.op t).interpret ((s.args t).map (value s))
  /-- A common head may stand before arguments that it fits. -/
  build {s : Store} {t : TermId} : t < s.size → (s.op t).isCommon →
    s.Fits ⟨fun _ _ => False, realCasts⟩ (s.sortOf t) (s.op t) (s.args t) →
    (∀ a ∈ s.args t, Sorted s a) → ((s.op t).isEquation → equations) → Sorted s t
  /-- A power with a positive integral literal as exponent is an iterated product. -/
  power {s : Store} {t b e : TermId} {r : ℚ} : Sorted s t → s.view t = (.power, [b, e]) →
    s.numeral? e = some r → Rational.isIntegral r → 0 < r →
    Sorted s b ∧ (s.sortOf b).isArith ∧ s.sortOf t = s.sortOf b ∧
      value s t = .number ((value s b).num ^ r.num.toNat)
  /-- A number may be raised to a positive integer. -/
  build_power {s : Store} {t b e : TermId} {k : ℕ} : t < s.size →
    s.view t = (.power, [b, e]) → (s.sortOf b).isArith → s.sortOf t = s.sortOf b →
    s.op e = .int k → 0 < k → Sorted s b → Sorted s e → Sorted s t
  /-- An irrational literal denotes its number. -/
  irrational {s : Store} {t : TermId} {a : Algebraic} : Sorted s t → s.op t = .algebraic a →
    irrationals ∧ (Numeral.irrational a).WellFormed ∧ s.sortOf t = .real ∧
      value s t = .number (Numeral.irrational a).value
  /-- An irrational number has a literal. -/
  build_irrational {s : Store} {t : TermId} {a : Algebraic} : irrationals →
    (Numeral.irrational a).WellFormed → t < s.size → s.node t = ⟨.algebraic a, [], .real⟩ →
    Sorted s t

namespace Semantics

variable {M : Semantics} {s after : Store} {t : TermId} {sort : TermSort} {v : Value} {p q : Prop}
  {x y : ℝ} {isInt : Bool}

/-- What the common heads are built from: arguments only. -/
def signature (M : Semantics) : Signature := ⟨fun _ _ => False, M.realCasts⟩

/-- The number that a term denotes. -/
noncomputable def num (M : Semantics) (s : Store) (t : TermId) : ℝ := (M.value s t).num

/-- Whether a formula is true. -/
def holds (M : Semantics) (s : Store) (t : TermId) : Prop := (M.value s t).holds

/-- A term has a sort and a value. -/
structure Denotes (M : Semantics) (s : Store) (t : TermId) (sort : TermSort) (v : Value) :
    Prop where
  /-- The term has a value. -/
  sorted : M.Sorted s t
  /-- The sort of the term. -/
  sort_eq : s.sortOf t = sort
  /-- The value of the term. -/
  value_eq : M.value s t = v

/-- A formula with its truth value. -/
abbrev Formula (M : Semantics) (s : Store) (t : TermId) (p : Prop) : Prop :=
  M.Denotes s t .bool (.truth p)

/-- A term of integers or of reals with its value. -/
abbrev Number (M : Semantics) (s : Store) (isInt : Bool) (t : TermId) (x : ℝ) : Prop :=
  M.Denotes s t (.number isInt) (.number x)

/-- All terms are numbers of one sort. -/
def Numbers (M : Semantics) (s : Store) (isInt : Bool) (terms : List TermId) : Prop :=
  ∀ t ∈ terms, M.Sorted s t ∧ s.sortOf t = .number isInt

/-- Different literals of one sort have different values. -/
def Separates (M : Semantics) (s : Store) : Prop :=
  ∀ a b, M.Sorted s a → M.Sorted s b → s.isValue a → s.isValue b → s.sortOf a = s.sortOf b →
    a ≠ b → M.value s a ≠ M.value s b

namespace Denotes

/-- What a term denotes does not change when the store grows. -/
theorem mono (known : M.Denotes s t sort v) (grown : s.Extends after) :
    M.Denotes after t sort v where
  sorted := M.mono known.sorted grown
  sort_eq := by rw [grown.sortOf_eq (M.inside known.sorted), known.sort_eq]
  value_eq := by rw [M.value_mono known.sorted grown, known.value_eq]

/-- The position of a term that denotes something is inside. -/
theorem inside (known : M.Denotes s t sort v) : t < s.size := M.inside known.sorted

/-- The value is one of the sort. -/
theorem hasSort (known : M.Denotes s t sort v) (scalar : sort.isScalar) : v.HasSort sort := by
  rw [← known.value_eq, ← known.sort_eq]
  exact M.hasSort known.sorted (by rwa [known.sort_eq])

/-- A term with a value denotes it. -/
theorem self (sorted : M.Sorted s t) : M.Denotes s t (s.sortOf t) (M.value s t) :=
  ⟨sorted, rfl, rfl⟩

/-- The values of terms that denote values. -/
theorem map_value {α : Type} {terms : List TermId} {as : List α} {value : α → Value}
    (known : List.Forall₂ (fun t a => M.Denotes s t sort (value a)) terms as) :
    terms.map (M.value s) = as.map value := by
  induction known with
  | nil => rfl
  | cons first _ rest => rw [List.map_cons, List.map_cons, first.value_eq, rest]

/-- Terms that denote values of a sort have values and are of that sort. -/
theorem of_mem {α : Type} {terms : List TermId} {as : List α} {value : α → Value}
    (known : List.Forall₂ (fun t a => M.Denotes s t sort (value a)) terms as) {t : TermId}
    (member : t ∈ terms) : M.Sorted s t ∧ s.sortOf t = sort := by
  induction known with
  | nil => cases member
  | cons first _ rest =>
    obtain rfl | later := List.mem_cons.mp member
    · exact ⟨first.sorted, first.sort_eq⟩
    · exact rest later

/-- A term with a common head fits its arguments, which have values, and its value is that of its
head. -/
theorem of_view {op : Op} {args : List TermId} (known : M.Denotes s t sort v)
    (view : s.view t = (op, args)) (common : op.isCommon) : s.Fits M.signature sort op args ∧
      (∀ a ∈ args, M.Sorted s a) ∧ v = op.interpret (args.map (M.value s)) := by
  obtain ⟨rfl, rfl⟩ := Store.view_eq_iff.mp view
  obtain ⟨sorted, rfl, rfl⟩ := known
  exact ⟨M.fits sorted common, fun a => M.of_mem_args sorted common, M.value_eq sorted common⟩

end Denotes

namespace Formula

variable {a : TermId}

/-- A formula keeps its truth value when the store grows. -/
theorem mono (known : M.Formula s t p) (grown : s.Extends after) : M.Formula after t p :=
  Denotes.mono known grown

/-- A formula may be read as any equivalent proposition. -/
theorem congr (known : M.Formula s t p) (same : p ↔ q) : M.Formula s t q := propext same ▸ known

/-- A term of the boolean sort that has a value is a formula. -/
theorem self (sorted : M.Sorted s t) (bool : s.sortOf t = .bool) :
    M.Formula s t (M.holds s t) where
  sorted := sorted
  sort_eq := bool
  value_eq := Value.eq_truth (bool ▸ M.hasSort sorted (.inl bool))

/-- A formula has one truth value. -/
theorem unique (known : M.Formula s t p) (other : M.Formula s t q) : p ↔ q :=
  iff_of_eq (Value.truth.inj (known.value_eq.symm.trans other.value_eq))

end Formula

namespace Number

/-- A number keeps its value when the store grows. -/
theorem mono (known : M.Number s isInt t x) (grown : s.Extends after) : M.Number after isInt t x :=
  Denotes.mono known grown

/-- A term may be read as any equal number. -/
theorem congr (known : M.Number s isInt t x) (same : x = y) : M.Number s isInt t y :=
  same ▸ known

/-- A term of a sort of numbers that has a value is a number. -/
theorem self (sorted : M.Sorted s t) (same : s.sortOf t = .number isInt) :
    M.Number s isInt t (M.num s t) where
  sorted := sorted
  sort_eq := same
  value_eq := by
    have arith : (s.sortOf t).isArith := same ▸ TermSort.isArith_number isInt
    exact Value.eq_number arith (M.hasSort sorted (.inr arith))

/-- The number that a term denotes. -/
theorem num_eq (known : M.Number s isInt t x) : M.num s t = x := by
  rw [num, known.value_eq, Value.num_number]

/-- A term of the integer sort denotes an integer. -/
theorem integral (known : M.Number s true t x) : ∃ n : ℤ, x = n := known.hasSort (.inr rfl)

/-- Whether a number has the integer sort. -/
theorem isInt_eq (known : M.Number s isInt t x) : s.isInt t = isInt := by
  rw [Store.isInt, known.sort_eq]
  cases isInt <;> rfl

/-- Numbers keep their values one by one when the store grows. -/
theorem mono_all {terms : List TermId} {xs : List ℝ}
    (known : List.Forall₂ (M.Number s isInt) terms xs) (grown : s.Extends after) :
    List.Forall₂ (M.Number after isInt) terms xs :=
  known.imp fun _ _ each => each.mono grown

end Number

namespace Numbers

variable {terms : List TermId} {xs : List ℝ}

/-- Numbers stay numbers when the store grows. -/
theorem mono (known : M.Numbers s isInt terms) (grown : s.Extends after) :
    M.Numbers after isInt terms := by
  intro t member
  obtain ⟨sorted, same⟩ := known t member
  exact ⟨M.mono sorted grown, by rw [grown.sortOf_eq (M.inside sorted), same]⟩

/-- Numbers keep their values when the store grows. -/
theorem map_num (known : M.Numbers s isInt terms) (grown : s.Extends after) :
    terms.map (M.num after) = terms.map (M.num s) :=
  List.map_congr_left fun t member => congrArg Value.num (M.value_mono (known t member).1 grown)

/-- Numbers denote their values. -/
theorem forall₂ (known : M.Numbers s isInt terms) :
    List.Forall₂ (M.Number s isInt) terms (terms.map (M.num s)) :=
  List.forall₂_map_right_iff.mpr (List.forall₂_same.mpr fun t member =>
    .self (known t member).1 (known t member).2)

/-- Terms that denote numbers are numbers. -/
theorem of_forall₂ (known : List.Forall₂ (M.Number s isInt) terms xs) :
    M.Numbers s isInt terms ∧ terms.map (M.num s) = xs := by
  refine ⟨fun t member => Denotes.of_mem known member, ?_⟩
  induction known with
  | nil => rfl
  | cons first _ rest => rw [List.map_cons, Number.num_eq first, rest]

end Numbers

/-- Different literals have different values in a store if they do in one that it grows into. -/
theorem Separates.of_extends (known : M.Separates after) (grown : s.Extends after) :
    M.Separates s := by
  intro a b left right first second sorts different
  have insideA := M.inside left
  have insideB := M.inside right
  rw [← M.value_mono left grown, ← M.value_mono right grown]
  refine known a b (M.mono left grown) (M.mono right grown) ?_ ?_ ?_ different
  · rwa [Store.isValue, grown.op_eq insideA]
  · rwa [Store.isValue, grown.op_eq insideB]
  · rwa [grown.sortOf_eq insideA, grown.sortOf_eq insideB]

end Semantics

namespace Terms

variable {M : Semantics} {s : Store} {sort : TermSort} {op : Op} {args : List TermId}

/-- The sort of an application of a common head is computed from its arguments. -/
theorem inferSort_of_isCommon {Γ : Signature} (fits : s.Fits Γ sort op args)
    (common : op.isCommon) : s.inferSort op args = sort := by
  revert fits
  unfold Store.Fits
  split <;> intro fits
  case h_2 | h_21 => cases common
  case h_10 => exact fits.2.1
  case h_17 a => exact arithJoin_eq fits.1 (by simp) (by simpa using fits.2)
  case h_18 a b => exact arithJoin_eq fits.1 (by simp) (by simpa using fits.2)
  case h_19 => exact arithJoin_eq fits.1 (by rintro rfl; simp at fits) fits.2.2
  case h_20 => exact arithJoin_eq fits.1 (by rintro rfl; simp at fits) fits.2.2
  all_goals first | exact fits.elim | exact fits.symm | exact fits.1.symm

/-- A node with a common head that fits arguments with values denotes the value of its head. -/
theorem means_of_node {after : Store} {t : TermId} (common : op.isCommon)
    (grown : s.Extends after) (found : t < after.size ∧ after.node t = ⟨op, args, sort⟩)
    (fits : s.Fits M.signature sort op args) (sorted : ∀ a ∈ args, M.Sorted s a)
    (allowed : op.isEquation → M.equations) :
    M.Denotes after t sort (op.interpret (args.map (M.value s))) := by
  obtain ⟨inside, node⟩ := found
  have head : after.op t = op := by rw [Store.op, node]
  have arguments : after.args t = args := by rw [Store.args, node]
  have same : after.sortOf t = sort := by rw [Store.sortOf, node]
  have built : M.Sorted after t := by
    refine M.build inside (by rwa [head]) ?_ ?_ (by rwa [head])
    · rw [head, arguments, same]
      exact Store.WellSorted.fits_mono grown ⟨fun _ _ known => known, id⟩
        (fun a member => M.inside (sorted a member)) fits
    · rw [arguments]
      exact fun a member => M.mono (sorted a member) grown
  refine ⟨built, same, ?_⟩
  rw [M.value_eq built (by rwa [head]), head, arguments]
  congr 1
  exact List.map_congr_left fun a member => M.value_mono (sorted a member) grown

/-- An application of a common head that fits arguments with values denotes the value of the
head. -/
theorem mkApp_means {v : Value} (common : op.isCommon) (fits : s.Fits M.signature sort op args)
    (sorted : ∀ a ∈ args, M.Sorted s a) (allowed : op.isEquation → M.equations)
    (value : op.interpret (args.map (M.value s)) = v) :
    (mkApp op args).Ensures s fun t after => M.Denotes after t sort v := by
  have inside : ∀ a ∈ args, a < s.size := fun a member => M.inside (sorted a member)
  refine (mkApp_node inside).imp fun t after grown found => ?_
  rw [inferSort_of_isCommon fits common] at found
  exact value ▸ means_of_node common grown found fits sorted allowed

section Formulas

variable {a b c : TermId} {p q r : Prop} {v w : Value}

/-- The literal `true`. -/
theorem trueId_means (s : Store) : M.Formula s Store.trueId True := by
  have fits : s.Fits M.signature .bool (.bool true) [] := rfl
  have known := means_of_node (M := M) rfl (.refl s) s.node_trueId fits (by simp)
    (by simp [Op.isEquation])
  exact Semantics.Formula.congr known (by simp)

/-- The literal `false`. -/
theorem falseId_means (s : Store) : M.Formula s Store.falseId False := by
  have fits : s.Fits M.signature .bool (.bool false) [] := rfl
  have known := means_of_node (M := M) rfl (.refl s) s.node_falseId fits (by simp)
    (by simp [Op.isEquation])
  exact Semantics.Formula.congr known (by simp)

/-- A truth value. -/
theorem ofBool_means (s : Store) (b : Bool) : M.Formula s (ofBool b) (b = true) := by
  cases b with
  | true => exact (trueId_means s).congr (by simp)
  | false => exact (falseId_means s).congr (by simp)

/-- Negation of a formula. -/
theorem mkNot_means (known : M.Formula s a p) :
    (mkNot a).Ensures s fun t after => M.Formula after t (¬p) := by
  have fits : s.Fits M.signature .bool .not [a] := ⟨rfl, known.sort_eq⟩
  exact mkApp_means rfl fits (by simpa using known.sorted) (by simp [Op.isEquation])
    (by simp [Op.interpret, known.value_eq])

/-- Conjunction of formulas. -/
theorem mkAnd_means {α : Type} {as : List α} {p : α → Prop}
    (known : List.Forall₂ (fun t a => M.Formula s t (p a)) args as) :
    (mkAnd args).Ensures s fun t after => M.Formula after t (∀ a ∈ as, p a) := by
  match args, known with
  | [], .nil => exact (trueId_means s).congr (by simp)
  | [a], .cons only .nil => exact only.congr List.forall_mem_singleton.symm
  | a :: b :: rest, known =>
    have each := fun t => Semantics.Denotes.of_mem known (t := t)
    have fits : s.Fits M.signature .bool .and (a :: b :: rest) :=
      ⟨rfl, by simp, fun t member => (each t member).2⟩
    refine mkApp_means rfl fits (fun t member => (each t member).1) (by simp [Op.isEquation]) ?_
    rw [Semantics.Denotes.map_value known]
    simp [Op.interpret]

/-- Disjunction of formulas. -/
theorem mkOr_means {α : Type} {as : List α} {p : α → Prop}
    (known : List.Forall₂ (fun t a => M.Formula s t (p a)) args as) :
    (mkOr args).Ensures s fun t after => M.Formula after t (∃ a ∈ as, p a) := by
  match args, known with
  | [], .nil => exact (falseId_means s).congr (by simp)
  | [a], .cons only .nil => exact only.congr (by simp)
  | a :: b :: rest, known =>
    have each := fun t => Semantics.Denotes.of_mem known (t := t)
    have fits : s.Fits M.signature .bool .or (a :: b :: rest) :=
      ⟨rfl, by simp, fun t member => (each t member).2⟩
    refine mkApp_means rfl fits (fun t member => (each t member).1) (by simp [Op.isEquation]) ?_
    rw [Semantics.Denotes.map_value known]
    simp [Op.interpret]

/-- Conjunction of two formulas. -/
theorem mkAnd_pair_means (left : M.Formula s a p) (right : M.Formula s b q) :
    (mkAnd [a, b]).Ensures s fun t after => M.Formula after t (p ∧ q) := by
  have both : List.Forall₂ (fun t r => M.Formula s t (id r)) [a, b] [p, q] :=
    .cons left (.cons right .nil)
  refine (mkAnd_means both).imp fun t after _ built => built.congr ?_
  rw [List.forall_mem_cons, List.forall_mem_singleton]
  exact Iff.rfl

/-- Equation of terms of one sort. -/
theorem mkEq_means (allowed : M.equations) (left : M.Denotes s a sort v)
    (right : M.Denotes s b sort w) :
    (mkEq a b).Ensures s fun t after => M.Formula after t (v = w) := by
  have fits : s.Fits M.signature .bool .eq [a, b] := ⟨rfl, by rw [left.sort_eq, right.sort_eq]⟩
  exact mkApp_means rfl fits (by simp [left.sorted, right.sorted]) (fun _ => allowed)
    (by simp [Op.interpret, left.value_eq, right.value_eq])

open Classical in
/-- Case distinction between terms of one sort. -/
theorem mkIte_means (condition : M.Formula s c p) (yes : M.Denotes s a sort v)
    (no : M.Denotes s b sort w) :
    (mkIte c a b).Ensures s fun t after => M.Denotes after t sort (if p then v else w) := by
  have fits : s.Fits M.signature sort .ite [c, a, b] :=
    ⟨condition.sort_eq, yes.sort_eq, no.sort_eq⟩
  refine mkApp_means rfl fits (by simp [condition.sorted, yes.sorted, no.sorted])
    (by simp [Op.isEquation]) ?_
  simp only [List.map_cons, List.map_nil, condition.value_eq, yes.value_eq, no.value_eq]
  rfl

end Formulas

section Numbers

variable {a b : TermId} {x y : ℝ} {isInt : Bool}

/-- An integer literal. -/
theorem mkInt_means (n : ℤ) : (mkInt n).Ensures s fun t after => M.Number after true t n := by
  have fits : s.Fits M.signature .int (.int n) [] := rfl
  exact (intern_node (by simp)).imp fun t after grown found =>
    means_of_node rfl grown found fits (by simp) (by simp [Op.isEquation])

/-- An integer literal as such. -/
theorem mkInt_op (n : ℤ) : (mkInt n).Ensures s fun t after => after.op t = .int n :=
  (intern_node (by simp)).imp fun t after _ found => by rw [Store.op, found.2]

/-- A rational literal of the real sort. -/
theorem mkReal_means (r : ℚ) : (mkReal r).Ensures s fun t after => M.Number after false t r := by
  have fits : s.Fits M.signature .real (.real r) [] := rfl
  exact (intern_node (by simp)).imp fun t after grown found =>
    means_of_node rfl grown found fits (by simp) (by simp [Op.isEquation])

/-- A rational literal, which is integral if it is of the integer sort. -/
theorem mkNumeral_means {r : ℚ} (integral : isInt → Rational.isIntegral r) :
    (mkNumeral r isInt).Ensures s fun t after => M.Number after isInt t r := by
  unfold mkNumeral
  cases isInt with
  | true =>
    rw [if_pos (by simpa using integral rfl)]
    refine (mkInt_means r.num).imp fun t after _ built => built.congr ?_
    exact_mod_cast num_of_isIntegral (integral rfl)
  | false => exact mkReal_means r

/-- Sum of numbers of one sort. -/
theorem mkAdd_means {xs : List ℝ} (some : args ≠ [])
    (known : List.Forall₂ (M.Number s isInt) args xs) :
    (mkAdd args).Ensures s fun t after => M.Number after isInt t xs.sum := by
  match args, known with
  | [a], .cons only .nil => exact only.congr List.sum_singleton.symm
  | a :: b :: rest, known =>
    have each := fun t => Semantics.Denotes.of_mem known (t := t)
    have fits : s.Fits M.signature (.number isInt) .add (a :: b :: rest) :=
      ⟨TermSort.isArith_number isInt, by simp, fun t member => (each t member).2⟩
    refine mkApp_means rfl fits (fun t member => (each t member).1) (by simp [Op.isEquation]) ?_
    rw [Semantics.Denotes.map_value known]
    simp [Op.interpret, Function.comp_def]

/-- Product of numbers of one sort. -/
theorem mkMul_means {xs : List ℝ} (some : args ≠ [])
    (known : List.Forall₂ (M.Number s isInt) args xs) :
    (mkMul args).Ensures s fun t after => M.Number after isInt t xs.prod := by
  match args, known with
  | [a], .cons only .nil => exact only.congr List.prod_singleton.symm
  | a :: b :: rest, known =>
    have each := fun t => Semantics.Denotes.of_mem known (t := t)
    have fits : s.Fits M.signature (.number isInt) .mul (a :: b :: rest) :=
      ⟨TermSort.isArith_number isInt, by simp, fun t member => (each t member).2⟩
    refine mkApp_means rfl fits (fun t member => (each t member).1) (by simp [Op.isEquation]) ?_
    rw [Semantics.Denotes.map_value known]
    simp [Op.interpret, Function.comp_def]

/-- Product of two numbers. -/
theorem mkMul_pair_means (left : M.Number s isInt a x) (right : M.Number s isInt b y) :
    (mkMul [a, b]).Ensures s fun t after => M.Number after isInt t (x * y) := by
  have both : List.Forall₂ (M.Number s isInt) [a, b] [x, y] := .cons left (.cons right .nil)
  exact (mkMul_means (by simp) both).imp fun t after _ built => built.congr (by simp)

/-- Negation of a number. -/
theorem mkNeg_means (known : M.Number s isInt a x) :
    (mkApp .neg [a]).Ensures s fun t after => M.Number after isInt t (-x) := by
  have fits : s.Fits M.signature (.number isInt) .neg [a] :=
    ⟨TermSort.isArith_number isInt, known.sort_eq⟩
  exact mkApp_means rfl fits (by simpa using known.sorted) (by simp [Op.isEquation])
    (by simp [Op.interpret, known.value_eq])

/-- Power with a positive integer literal as exponent. -/
theorem mkPower_means {e : TermId} {k : ℕ} (base : M.Number s isInt a x) (positive : 0 < k)
    (literal : s.op e = .int k) (sorted : M.Sorted s e) :
    (mkApp .power [a, e]).Ensures s fun t after => M.Number after isInt t (x ^ k) := by
  have inside : ∀ b ∈ [a, e], b < s.size := by simp [base.inside, M.inside sorted]
  have exponent : s.sortOf e = .int := by
    have fits := M.fits sorted (by rw [literal]; rfl)
    rw [literal] at fits
    cases arguments : s.args e with
    | nil => rwa [arguments] at fits
    | cons => rw [arguments] at fits; exact fits.elim
  have inferred : s.inferSort .power [a, e] = .number isInt := by
    cases isInt with
    | true => exact arithJoin_eq rfl (by simp) (by simpa using ⟨base.sort_eq, exponent⟩)
    | false =>
      have real : s.sortOf a = .real := base.sort_eq
      simp [Store.inferSort, Store.arithJoin, Store.isInt, real, TermSort.number]
  refine (mkApp_node inside).imp fun t after grown found => ?_
  rw [inferred] at found
  obtain ⟨position, node⟩ := found
  have base := base.mono grown
  have view : after.view t = (.power, [a, e]) := by rw [Store.view, node]
  have same : after.sortOf t = after.sortOf a := by rw [Store.sortOf, node, base.sort_eq]
  have arith : (after.sortOf a).isArith := by
    rw [base.sort_eq]
    exact TermSort.isArith_number isInt
  have literal : after.op e = .int k := by rw [grown.op_eq (M.inside sorted), literal]
  have built : M.Sorted after t := M.build_power position view arith same literal positive
    base.sorted (M.mono sorted grown)
  have numeral : after.numeral? e = some (k : ℚ) := by
    rw [Store.numeral?, literal]
    simp [Rational.ofInt]
  obtain ⟨_, _, _, value⟩ := M.power built view numeral (by simp [Rational.isIntegral])
    (by exact_mod_cast positive)
  refine ⟨built, same.trans base.sort_eq, ?_⟩
  rw [value, base.value_eq]
  simp

/-- Order of two numbers of one sort. -/
theorem mkLe_means (left : M.Number s isInt a x) (right : M.Number s isInt b y) :
    (mkApp .le [a, b]).Ensures s fun t after => M.Formula after t (x ≤ y) := by
  have fits : s.Fits M.signature .bool .le [a, b] :=
    ⟨rfl, by rw [left.sort_eq]; exact TermSort.isArith_number isInt,
      by rw [left.sort_eq, right.sort_eq]⟩
  exact mkApp_means rfl fits (by simp [left.sorted, right.sorted]) (by simp [Op.isEquation])
    (by simp [Op.interpret, left.value_eq, right.value_eq])

/-- Order of two numbers of one sort, the greater one first. -/
theorem mkGe_means (left : M.Number s isInt a x) (right : M.Number s isInt b y) :
    (mkApp .ge [a, b]).Ensures s fun t after => M.Formula after t (x ≥ y) := by
  have fits : s.Fits M.signature .bool .ge [a, b] :=
    ⟨rfl, by rw [left.sort_eq]; exact TermSort.isArith_number isInt,
      by rw [left.sort_eq, right.sort_eq]⟩
  exact mkApp_means rfl fits (by simp [left.sorted, right.sorted]) (by simp [Op.isEquation])
    (by simp [Op.interpret, left.value_eq, right.value_eq])

/-- Cast of an integer. -/
theorem mkToReal_means (known : M.Number s true a x) :
    (mkApp .toReal [a]).Ensures s fun t after => M.Number after false t x := by
  have fits : s.Fits M.signature .real .toReal [a] := ⟨rfl, .inl known.sort_eq⟩
  exact mkApp_means rfl fits (by simpa using known.sorted) (by simp [Op.isEquation])
    (by simp [Op.interpret, known.value_eq])

end Numbers

end Terms

namespace Semantics

open Terms

variable {M : Semantics} {s : Store} {args : List TermId}

/-- Formulas are those that have a truth value, which is true if they hold. -/
theorem formulas_of_sorted (sorted : ∀ a ∈ args, M.Sorted s a)
    (bool : ∀ a ∈ args, s.sortOf a = .bool) : ∀ a ∈ args, M.Formula s a (M.holds s a) :=
  fun a member => .self (sorted a member) (bool a member)

/-- A formula is true if it has the value of a true one. -/
theorem Formula.iff_holds {t : TermId} {p : Prop} (known : M.Formula s t p) :
    p ↔ M.Formula s t True :=
  ⟨fun holds => known.congr (iff_of_true holds trivial), fun holds => (holds.unique known).mp trivial⟩

/-- The terms that have a value make a logic. -/
def logic (M : Semantics) : Logic where
  Value := Value
  truth := .truth
  equations := M.equations
  Denotes := M.Denotes
  truth_iff same := iff_of_eq (Value.truth.inj same)
  inside known := known.inside
  sort_eq known := known.sort_eq
  unique left right := left.value_eq.symm.trans right.value_eq
  mono known := known.mono
  exists_truth known := ⟨_, Value.eq_truth (known.hasSort (.inl rfl))⟩
  literal := ofBool_means
  not := mkNot_means
  and := mkAnd_means
  or := mkOr_means
  eq := mkEq_means
  ite := mkIte_means
  of_bool known view := (known.of_view view rfl).2.2
  of_not known view := by
    obtain ⟨⟨rfl, bool⟩, sorted, rfl⟩ := known.of_view view rfl
    exact ⟨rfl, _, Formula.self (sorted _ (by simp)) bool, rfl⟩
  of_and known view := by
    obtain ⟨⟨rfl, _, bool⟩, sorted, rfl⟩ := known.of_view view rfl
    have each := formulas_of_sorted sorted bool
    refine ⟨rfl, fun a member => ⟨_, each a member⟩, congrArg Value.truth (propext ?_)⟩
    simp only [List.forall_mem_map]
    exact forall₂_congr fun a member => (each a member).iff_holds
  of_or known view := by
    obtain ⟨⟨rfl, _, bool⟩, sorted, rfl⟩ := known.of_view view rfl
    have each := formulas_of_sorted sorted bool
    refine ⟨rfl, fun a member => ⟨_, each a member⟩, congrArg Value.truth (propext ?_)⟩
    simp only [List.mem_map, exists_exists_and_eq_and]
    exact exists_congr fun a => and_congr_right fun member => (each a member).iff_holds
  of_implies known view := by
    obtain ⟨⟨rfl, left, right⟩, sorted, rfl⟩ := known.of_view view rfl
    exact ⟨rfl, _, _, Formula.self (sorted _ (by simp)) left, Formula.self (sorted _ (by simp)) right, rfl⟩
  of_xor known view := by
    have equations := M.equates known.sorted (by rw [(Store.view_eq_iff.mp view).1]; rfl)
    obtain ⟨⟨rfl, left, right⟩, sorted, rfl⟩ := known.of_view view rfl
    exact ⟨equations, rfl, _, _, Formula.self (sorted _ (by simp)) left,
      Formula.self (sorted _ (by simp)) right, rfl⟩
  of_ite known view := by
    obtain ⟨⟨bool, left, right⟩, sorted, rfl⟩ := known.of_view view rfl
    exact ⟨_, _, _, Formula.self (sorted _ (by simp)) bool, ⟨sorted _ (by simp), left, rfl⟩,
      ⟨sorted _ (by simp), right, rfl⟩, rfl⟩
  of_eq known view := by
    have equations := M.equates known.sorted (by rw [(Store.view_eq_iff.mp view).1]; rfl)
    obtain ⟨⟨rfl, same⟩, sorted, rfl⟩ := known.of_view view rfl
    exact ⟨equations, rfl, _, _, _, .self (sorted _ (by simp)), ⟨sorted _ (by simp), same, rfl⟩,
      rfl⟩
  of_distinct {s t args sort v} known view := by
    have equations := M.equates known.sorted (by rw [(Store.view_eq_iff.mp view).1]; rfl)
    obtain ⟨⟨rfl, same⟩, sorted, rfl⟩ := known.of_view view rfl
    have head := Store.sortOf_eq_headSort same
    exact ⟨equations, rfl, s.headSort args, M.value s,
      fun a member => ⟨sorted a member, head a member, rfl⟩, rfl⟩

/-- Different literals have different values as terms of the logic. -/
theorem Separates.logic (known : M.Separates s) : M.logic.Separates s := by
  rintro a b sort v w left right first second different rfl
  have sorts : s.sortOf a = s.sortOf b := left.sort_eq.trans right.sort_eq.symm
  exact known a b left.sorted right.sorted first second sorts different
    (left.value_eq.trans right.value_eq.symm)

end Semantics

/-- Common heads are denoted as interpreted. -/
theorem Op.denote_of_isCommon {I : Assignment} {sort : TermSort} {op : Op} {args : List Value}
    (common : op.isCommon) : op.denote I sort args = op.interpret args := by
  cases op <;> first | rfl | cases common

/-- A common head fits its arguments whatever the constants are. -/
theorem Store.fits_of_isCommon {s : Store} {Γ : Signature} {sort : TermSort} {op : Op}
    {args : List TermId} (fits : s.Fits Γ sort op args) (common : op.isCommon) :
    s.Fits ⟨fun _ _ => False, Γ.realCasts⟩ sort op args := by
  revert fits
  unfold Fits
  split <;> intro fits
  case h_2 => cases common
  all_goals exact fits

namespace Assignment

variable {Γ : Signature} {I : Assignment}

/-- Well-sorted terms have values under an assignment. -/
noncomputable def semantics (Γ : Signature) (I : Assignment) : Semantics where
  Sorted s := s.WellSorted Γ
  value s := s.value I
  realCasts := Γ.realCasts
  equations := True
  irrationals := False
  inside sorted := sorted.inside
  mono sorted := sorted.mono
  value_mono sorted grown := grown.value_eq I sorted.inside
  hasSort sorted _ := sorted.hasSort
  fits sorted common := Store.fits_of_isCommon sorted.fits common
  equates _ _ := trivial
  of_mem_args sorted _ := sorted.of_mem_args
  value_eq {s t} _ common := by rw [s.value_eq, Op.denote_of_isCommon common]
  build {s t} inside _ fits arguments _ := by
    refine .intro inside ?_ arguments
    have within : Signature.Within ⟨fun _ _ => False, Γ.realCasts⟩ Γ := ⟨fun _ _ => False.elim, id⟩
    exact Store.WellSorted.fits_congr (fun _ _ => rfl) (fun _ _ => rfl) within fits
  power {s t b e r} sorted view literal _ _ := by
    obtain ⟨⟨arith, same, k, _, head⟩, arguments, value⟩ :=
      (Store.Denotes.self sorted I).of_view view
    obtain rfl : (k : ℚ) = r := by simpa [Store.numeral?, head, Rational.ofInt] using literal
    have exponent : s.value I e = .number k := by
      rw [s.value_eq, head]
      simp [Op.denote, Op.interpret]
    refine ⟨arguments b (by simp), same ▸ arith, same.symm, ?_⟩
    rw [value]
    simp [Op.denote, Op.interpret, exponent]
  build_power {s t b e k} inside view arith same literal positive base exponent := by
    obtain ⟨head, arguments⟩ := Store.view_eq_iff.mp view
    refine .intro inside ?_ ?_
    · rw [head, arguments, same]
      exact ⟨arith, rfl, k, positive, literal⟩
    · rw [arguments]
      simp [base, exponent]
  irrational {s t a} sorted head := by
    have fits := sorted.fits
    rw [head] at fits
    cases s.args t <;> exact fits.elim
  build_irrational allowed := allowed.elim

/-- What a term denotes is the same in both readings. -/
theorem denotes_iff {s : Store} {t : TermId} {sort : TermSort} {v : Value} :
    (I.semantics Γ).Denotes s t sort v ↔ s.Denotes Γ I t sort v :=
  ⟨fun ⟨sorted, same, value⟩ => ⟨sorted, same, value⟩,
    fun ⟨sorted, same, value⟩ => ⟨sorted, same, value⟩⟩

end Assignment

end Stratagem
