import Mathlib.Analysis.SpecialFunctions.Arcosh
import Mathlib.Analysis.SpecialFunctions.Arsinh
import Mathlib.Analysis.SpecialFunctions.Artanh
import Mathlib.Analysis.SpecialFunctions.Trigonometric.Arctan
import Mathlib.Analysis.SpecialFunctions.Trigonometric.Inverse
import Stratagem.Proofs.Number.RealPower
import Stratagem.Proofs.Term.Semantics

/-!
# The meaning of arithmetic

The value of every term of booleans, integers and reals under a valuation, which also says
what division by zero gives: division, Euclidean division and remainders, powers with rational
exponents, circular and hyperbolic functions and their inverses, irrational literals and casts. A
term is well-sorted if every application in it is, and it is defined if every function in it is
applied inside its domain. Such terms have a semantics (`Valuation.semantics`).
-/
namespace Stratagem

open Store (Extends)

/-- What is left open: values for constants, and for quotients and remainders by zero. -/
structure Valuation extends Assignment where
  /-- The quotient of a real by zero. -/
  quotient : ℝ → ℝ
  /-- The quotient of an integer by zero. -/
  intQuotient : ℤ → ℤ
  /-- The remainder of an integer by zero. -/
  remainder : ℤ → ℤ

namespace Valuation

variable (J : Valuation)

open Classical in
/-- Division of reals. -/
noncomputable def divide (x y : ℝ) : ℝ := if y = 0 then J.quotient x else x / y

/-- Euclidean division. -/
def divideInt (m n : ℤ) : ℤ := if n = 0 then J.intQuotient m else m / n

/-- Euclidean remainder. -/
def modulo (m n : ℤ) : ℤ := if n = 0 then J.remainder m else m % n

/-- Remainder with the sign of the divisor. -/
def signedRemainder (m n : ℤ) : ℤ := if 0 ≤ n then J.modulo m n else -J.modulo m n

end Valuation

namespace Op

/-- The real function of a circular or hyperbolic operator or of an inverse of one. -/
noncomputable def function? : Op → Option (ℝ → ℝ)
  | sin => some Real.sin
  | cos => some Real.cos
  | tan => some Real.tan
  | asin => some Real.arcsin
  | acos => some Real.arccos
  | atan => some Real.arctan
  | sinh => some Real.sinh
  | cosh => some Real.cosh
  | tanh => some Real.tanh
  | asinh => some Real.arsinh
  | acosh => some Real.arcosh
  | atanh => some Real.artanh
  | _ => none

/-- The domain of a function. -/
def InDomain : Op → ℝ → Prop
  | tan, x => Real.cos x ≠ 0
  | asin, x | acos, x => -1 ≤ x ∧ x ≤ 1
  | acosh, x => 1 ≤ x
  | atanh, x => -1 < x ∧ x < 1
  | _, _ => True

/-- Heads that are defined for all arguments. -/
def isTotal : Op → Bool
  | div | power | tan | asin | acos | acosh | atanh => false
  | _ => true

/-- Heads that every language has, wherever the sorts fit. -/
def isFree : Op → Bool
  | eq | distinct | xor | isInt | algebraic _ | power | sin | cos | tan | asin | acos | atan | sinh
  | cosh | tanh | asinh | acosh | atanh => false
  | _ => true

/-- The value of an application in arithmetic, from its head, its sort and the values of its
arguments. -/
noncomputable def evaluate (J : Valuation) (sort : TermSort) : Op → List Value → Value
  | var name, _ => J.constant name sort
  | algebraic a, _ => .number (Numeral.irrational a).value
  | pi, _ => .number Real.pi
  | div, [a, b] => .number (J.divide a.num b.num)
  | intDiv, [a, b] => .number (J.divideInt ⌊a.num⌋ ⌊b.num⌋)
  | mod, [a, b] => .number (J.modulo ⌊a.num⌋ ⌊b.num⌋)
  | rem, [a, b] => .number (J.signedRemainder ⌊a.num⌋ ⌊b.num⌋)
  | power, [a, e] => .number (realPower a.num e.num)
  | toInt, [a] => .number ⌊a.num⌋
  | isInt, [a] => .truth (∃ n : ℤ, a.num = n)
  | op, args =>
    match op.function?, args with
    | some f, [a] => .number (f a.num)
    | _, _ => op.interpret args

/-- Common heads are read as everywhere. -/
theorem evaluate_of_isCommon {J : Valuation} {sort : TermSort} {op : Op} (common : op.isCommon)
    (args : List Value) : op.evaluate J sort args = op.interpret args := by
  cases op <;> first | rfl | cases common

/-- Common heads are defined for all arguments. -/
theorem isTotal_of_isCommon {op : Op} (common : op.isCommon) : op.isTotal := by
  cases op <;> first | rfl | cases common

/-- No common head is a function. -/
theorem function?_of_isCommon {op : Op} (common : op.isCommon) : op.function? = none := by
  cases op <;> first | rfl | cases common

/-- The value of a function. -/
theorem evaluate_of_function? {J : Valuation} {sort : TermSort} {op : Op} {f : ℝ → ℝ}
    (known : op.function? = some f) (v : Value) :
    op.evaluate J sort [v] = .number (f v.num) := by
  cases op <;> cases known <;> rfl

end Op

namespace Store

/-- The value of a term under a valuation. -/
noncomputable def meaning (J : Valuation) (s : Store) (t : TermId) : Value :=
  (s.op t).evaluate J (s.sortOf t) ((s.args t).attach.map fun a => s.meaning J a.1)
termination_by t
decreasing_by exact lt_of_mem_args a.2

variable {J : Valuation} {s after : Store} {t a b e : TermId} {P Q : TermId → Prop}

/-- The value of a term is that of its head on the values of its arguments. -/
theorem meaning_eq (J : Valuation) (s : Store) (t : TermId) : s.meaning J t =
    (s.op t).evaluate J (s.sortOf t) ((s.args t).map (s.meaning J)) := by
  rw [meaning, List.attach_map_val (f := s.meaning J)]

/-- A term in the store keeps its value when the store grows. -/
theorem Extends.meaning_eq (grown : s.Extends after) (inside : t < s.size) :
    after.meaning J t = s.meaning J t := by
  induction t using Nat.strongRecOn with
  | ind t smaller =>
    rw [Store.meaning_eq, Store.meaning_eq, grown.op_eq inside, grown.sortOf_eq inside,
      grown.args_eq inside]
    congr 1
    refine List.map_congr_left fun a member => ?_
    have before := lt_of_mem_args member
    exact smaller a before (before.trans inside)

/-- What holds of a term and of all terms in it. -/
inductive Throughout (s : Store) (P : TermId → Prop) : TermId → Prop
  | intro {t : TermId} (here : P t) (args : ∀ a ∈ s.args t, Throughout s P a) : Throughout s P t

namespace Throughout

/-- What holds throughout a term holds of it. -/
theorem here (known : s.Throughout P t) : P t := by
  cases known
  assumption

/-- What holds throughout a term holds throughout its arguments. -/
theorem of_mem_args (known : s.Throughout P t) (member : a ∈ s.args t) : s.Throughout P a := by
  cases known with
  | intro _ args => exact args a member

/-- What follows from what holds throughout a term holds throughout it. -/
theorem imp (known : s.Throughout P t) (follows : ∀ a, P a → Q a) : s.Throughout Q t := by
  induction known with
  | intro here _ each => exact .intro (follows _ here) each

/-- Both of what holds throughout a term hold throughout it. -/
theorem and (first : s.Throughout P t) (second : s.Throughout Q t) :
    s.Throughout (fun a => P a ∧ Q a) t := by
  induction first with
  | intro here _ each =>
    exact .intro ⟨here, second.here⟩ fun a member => each a member (second.of_mem_args member)

/-- What holds throughout a term does so still in a store that has grown. -/
theorem mono (known : s.Throughout P t) (grown : s.Extends after) (inside : t < s.size)
    (lasting : ∀ a, a < s.size → P a → Q a) : after.Throughout Q t := by
  induction known with
  | intro here _ each =>
    refine .intro (lasting _ inside here) fun a member => ?_
    rw [grown.args_eq inside] at member
    exact each a member ((lt_of_mem_args member).trans inside)

end Throughout

/-- The sorts of an application fit together. -/
def SortsFit (s : Store) (sort : TermSort) (op : Op) (args : List TermId) : Prop :=
  match op, args with
  | .var _, [] => sort.isScalar
  | .algebraic _, [] | .pi, [] => sort = .real
  | .div, [a, b] => sort = .real ∧ s.sortOf a = .real ∧ s.sortOf b = .real
  | .intDiv, [a, b] | .mod, [a, b] | .rem, [a, b] =>
    sort = .int ∧ s.sortOf a = .int ∧ s.sortOf b = .int
  | .power, [a, e] => (s.sortOf a).isArith ∧ (s.sortOf e).isArith ∧ sort = s.arithJoin [a, e]
  | .toInt, [a] => sort = .int ∧ s.sortOf a = .real
  | .isInt, [a] => sort = .bool ∧ s.sortOf a = .real
  | op, args =>
    op.isCommon ∧ s.Fits ⟨fun _ _ => False, False⟩ sort op args ∨
      op.function?.isSome ∧ sort = .real ∧ ∃ a, args = [a] ∧ s.sortOf a = .real

end Store

/-- A language of arithmetic. -/
structure Language where
  /-- Whether there are equations. -/
  equations : Prop
  /-- Whether there are irrational literals. -/
  irrationals : Prop
  /-- Whether there are negative exponents. -/
  negatives : Prop

namespace Store

/-- A base may be raised to a rational: an integral exponent leaves the sort of the base, a negative
one stands at a real only, and another fraction only where there are irrational literals. -/
structure ExponentFits (s : Store) (L : Language) (sort : TermSort) (b : TermId) (r : ℚ) : Prop where
  /-- An integral exponent leaves the sort. -/
  integral : Rational.isIntegral r → s.sortOf b = sort
  /-- A negative exponent stands at a real. -/
  negative : r < 0 → sort = .real ∧ L.negatives
  /-- An exponent that is not integral may have an irrational power. -/
  fraction : ¬Rational.isIntegral r → L.irrationals

/-- A power is in a language: the base is the literal one of the sort of the power, or the exponent
is a rational literal to which the base may be raised. -/
def PowerFits (s : Store) (L : Language) (sort : TermSort) (b e : TermId) : Prop :=
  (s.isOne b ∧ s.sortOf b = sort) ∨ ∃ r, s.numeral? e = some r ∧ s.ExponentFits L sort b r

/-- A language admits an application: it is well-sorted, and restricted heads stand where they
may. -/
structure Admits (s : Store) (L : Language) (sort : TermSort) (op : Op) (args : List TermId) :
    Prop where
  /-- The sorts fit together. -/
  sorts : s.SortsFit sort op args
  /-- Equations, and tests for integers, stand where there are equations. -/
  equations : op.isEquation ∨ op = .isInt → L.equations
  /-- An irrational literal stands where there are some, and it is well-formed. -/
  irrational : ∀ a, op = .algebraic a → L.irrationals ∧ (Numeral.irrational a).WellFormed
  /-- Functions, which have irrational values, stand where there are irrational literals. -/
  function : op.function?.isSome → L.irrationals
  /-- Powers are in the language. -/
  power : ∀ b e, op = .power → args = [b, e] → s.PowerFits L sort b e

/-- A term is in a language. -/
def Within (s : Store) (L : Language) (t : TermId) : Prop :=
  s.Throughout (fun a => a < s.size ∧ s.Admits L (s.sortOf a) (s.op a) (s.args a)) t

/-- A quotient is known: the divisor is not zero, or dividend or divisor is a constant or a literal,
or all quotients by zero are zero. -/
def QuotientKnown (s : Store) (J : Valuation) (a b : TermId) : Prop :=
  (s.meaning J b).num ≠ 0 ∨ (s.op a).isAtom ∨ (s.op b).isAtom ∨ ∀ x, J.quotient x = 0

/-- A power is defined: an even root is taken of a number that is not negative, and a negative
exponent stands at a number other than zero. -/
def PowerDefined (s : Store) (J : Valuation) (b e : TermId) : Prop :=
  ∀ r, s.numeral? e = some r → (Even r.den → 0 ≤ (s.meaning J b).num) ∧
    (r < 0 → (s.meaning J b).num ≠ 0)

/-- A valuation defines an application. -/
structure Defined (s : Store) (J : Valuation) (op : Op) (args : List TermId) : Prop where
  /-- Quotients are known. -/
  quotient : ∀ a b, op = .div → args = [a, b] → s.QuotientKnown J a b
  /-- Powers are defined. -/
  power : ∀ b e, op = .power → args = [b, e] → s.PowerDefined J b e
  /-- Functions are applied inside their domains. -/
  function : ∀ a, args = [a] → op.InDomain (s.meaning J a).num

/-- A valuation defines a term. -/
def DefinedBy (s : Store) (J : Valuation) (t : TermId) : Prop :=
  s.Throughout (fun a => s.Defined J (s.op a) (s.args a)) t

/-- A term is in a language and defined by a valuation. -/
def Sensible (s : Store) (L : Language) (J : Valuation) (t : TermId) : Prop :=
  s.Throughout (fun a => (a < s.size ∧ s.Admits L (s.sortOf a) (s.op a) (s.args a)) ∧
    s.Defined J (s.op a) (s.args a)) t

variable {L : Language} {J : Valuation} {s after : Store} {t a b e : TermId}
  {sort : TermSort} {op : Op} {args : List TermId}

/-- Sorts of arguments that stay make an application fit still. -/
theorem SortsFit.mono (known : s.SortsFit sort op args) (grown : s.Extends after)
    (inside : ∀ a ∈ args, a < s.size) : after.SortsFit sort op args := by
  have sorts : ∀ a ∈ args, after.sortOf a = s.sortOf a := fun a member =>
    grown.sortOf_eq (inside a member)
  have fits (fits : s.Fits ⟨fun _ _ => False, False⟩ sort op args) :
      after.Fits ⟨fun _ _ => False, False⟩ sort op args :=
    WellSorted.fits_mono grown ⟨fun _ _ known => known, id⟩ inside fits
  revert known
  unfold SortsFit
  split
  case h_11 =>
    refine Or.imp (And.imp_right fits) (And.imp_right (And.imp_right ?_))
    rintro ⟨a, rfl, real⟩
    exact ⟨a, rfl, (sorts a (by simp)).trans real⟩
  all_goals simp_all [arithJoin, isInt]

/-- The literal of a term in the store stays. -/
theorem numeral?_mono (grown : s.Extends after) (inside : t < s.size) :
    after.numeral? t = s.numeral? t := by
  rw [numeral?, numeral?, grown.op_eq inside]

/-- A power that is in a language is so in a store that has grown. -/
theorem PowerFits.mono (known : s.PowerFits L sort b e) (grown : s.Extends after)
    (base : b < s.size) (exponent : e < s.size) : after.PowerFits L sort b e := by
  have same := grown.sortOf_eq base
  refine known.imp ?_ ?_
  · rw [isOne, isOne, numeral?_mono grown base, same]
    exact id
  · rintro ⟨r, literal, fits⟩
    exact ⟨r, (numeral?_mono grown exponent).trans literal,
      fun whole => same.trans (fits.integral whole), fits.negative, fits.fraction⟩

/-- An application that a language admits is admitted in a store that has grown. -/
theorem Admits.mono (known : s.Admits L sort op args) (grown : s.Extends after)
    (inside : ∀ a ∈ args, a < s.size) : after.Admits L sort op args where
  sorts := known.sorts.mono grown inside
  equations := known.equations
  irrational := known.irrational
  function := known.function
  power b e head arguments := by
    subst arguments
    exact (known.power b e head rfl).mono grown (inside b (by simp)) (inside e (by simp))

/-- A quotient that is known is so in a store that has grown. -/
theorem QuotientKnown.mono (known : s.QuotientKnown J a b) (grown : s.Extends after)
    (first : a < s.size) (second : b < s.size) : after.QuotientKnown J a b := by
  rw [QuotientKnown, grown.meaning_eq second, grown.op_eq first, grown.op_eq second]
  exact known

/-- A power that is defined is so in a store that has grown. -/
theorem PowerDefined.mono (known : s.PowerDefined J b e) (grown : s.Extends after)
    (base : b < s.size) (exponent : e < s.size) : after.PowerDefined J b e := by
  rw [PowerDefined, grown.meaning_eq base, numeral?_mono grown exponent]
  exact known

/-- An application that is defined is so in a store that has grown. -/
theorem Defined.mono (known : s.Defined J op args) (grown : s.Extends after)
    (inside : ∀ a ∈ args, a < s.size) : after.Defined J op args where
  quotient a b head arguments := by
    subst arguments
    exact (known.quotient a b head rfl).mono grown (inside a (by simp)) (inside b (by simp))
  power b e head arguments := by
    subst arguments
    exact (known.power b e head rfl).mono grown (inside b (by simp)) (inside e (by simp))
  function a arguments := by
    subst arguments
    rw [grown.meaning_eq (inside a (by simp))]
    exact known.function a rfl

/-- A sensible term is in the store. -/
theorem Sensible.inside (known : s.Sensible L J t) : t < s.size := known.here.1.1

/-- The application of a sensible term is admitted. -/
theorem Sensible.admits (known : s.Sensible L J t) :
    s.Admits L (s.sortOf t) (s.op t) (s.args t) := known.here.1.2

/-- The application of a sensible term is defined. -/
theorem Sensible.defined (known : s.Sensible L J t) : s.Defined J (s.op t) (s.args t) :=
  known.here.2

/-- The arguments of a sensible term are sensible. -/
theorem Sensible.of_mem_args (known : s.Sensible L J t) (member : a ∈ s.args t) :
    s.Sensible L J a := Throughout.of_mem_args known member

/-- A node of an application of sensible terms that is admitted and defined is sensible. -/
theorem Sensible.of_node (inside : t < s.size) (node : s.node t = ⟨op, args, sort⟩)
    (admits : s.Admits L sort op args) (defines : s.Defined J op args)
    (sensible : ∀ a ∈ args, s.Sensible L J a) : s.Sensible L J t := by
  have head : s.op t = op := by rw [Store.op, node]
  have arguments : s.args t = args := by rw [Store.args, node]
  have same : s.sortOf t = sort := by rw [Store.sortOf, node]
  subst head arguments same
  exact .intro ⟨⟨inside, admits⟩, defines⟩ sensible

/-- A sensible term is so in a store that has grown. -/
theorem Sensible.mono (known : s.Sensible L J t) (grown : s.Extends after) :
    after.Sensible L J t := by
  refine Throughout.mono known grown known.inside ?_
  rintro a inside ⟨⟨_, admits⟩, defines⟩
  have arguments : ∀ b ∈ s.args a, b < s.size := fun b member =>
    (lt_of_mem_args member).trans inside
  rw [grown.sortOf_eq inside, grown.op_eq inside, grown.args_eq inside]
  exact ⟨⟨grown.lt_size inside, admits.mono grown arguments⟩, defines.mono grown arguments⟩

/-- A common head does not ask for anything but its sorts. -/
theorem SortsFit.of_isCommon (known : s.SortsFit sort op args) (common : op.isCommon) :
    s.Fits ⟨fun _ _ => False, False⟩ sort op args := by
  revert known
  unfold SortsFit
  split
  case h_11 =>
    rintro (⟨_, fits⟩ | ⟨function, _⟩)
    · exact fits
    · rw [Op.function?_of_isCommon common] at function
      cases function
  all_goals cases common

/-- A common head that fits its arguments. -/
theorem sortsFit_of_isCommon (common : op.isCommon)
    (fits : s.Fits ⟨fun _ _ => False, False⟩ sort op args) : s.SortsFit sort op args := by
  unfold SortsFit
  split
  case h_11 => exact .inl ⟨common, fits⟩
  all_goals cases common

/-- A language admits what fits together, where there may be equations. -/
theorem admits_of_isCommon (common : op.isCommon)
    (fits : s.Fits ⟨fun _ _ => False, False⟩ sort op args)
    (allowed : op.isEquation → L.equations) : s.Admits L sort op args where
  sorts := sortsFit_of_isCommon common fits
  equations := by
    rintro (equation | rfl)
    · exact allowed equation
    · cases common
  irrational := by
    rintro a rfl
    cases common
  function := by
    rw [Op.function?_of_isCommon common]
    intro function
    cases function
  power := by
    rintro b e rfl
    cases common

/-- A free head stands wherever the sorts fit. -/
theorem admits_of_isFree (free : op.isFree) (sorts : s.SortsFit sort op args) :
    s.Admits L sort op args where
  sorts := sorts
  equations := by
    rintro (equation | rfl)
    · cases op <;> contradiction
    · cases free
  irrational := by
    rintro a rfl
    cases free
  function := by
    intro function
    cases op <;> contradiction
  power := by
    rintro b e rfl
    cases free

/-- A function stands before a real where there are irrational literals. -/
theorem admits_of_function {f : ℝ → ℝ} (function : op.function? = some f)
    (real : s.sortOf a = .real) (allowed : L.irrationals) : s.Admits L .real op [a] where
  sorts := by
    unfold SortsFit
    split
    case h_11 => exact .inr ⟨by rw [function]; rfl, rfl, a, rfl, real⟩
    all_goals cases function
  equations := by
    rintro (equation | rfl)
    · cases op <;> contradiction
    · cases function
  irrational := by
    rintro a rfl
    cases function
  function _ := allowed
  power := by
    rintro b e rfl
    cases function

/-- A power stands where the language has it. -/
theorem admits_of_powerFits (base : (s.sortOf b).isArith) (exponent : (s.sortOf e).isArith)
    (join : s.arithJoin [b, e] = sort) (fits : s.PowerFits L sort b e) :
    s.Admits L sort .power [b, e] := by
  refine ⟨⟨base, exponent, join.symm⟩, by simp [Op.isEquation], by simp, by simp [Op.function?], ?_⟩
  rintro _ _ _ ⟨⟩
  exact fits

/-- The application of a power is defined if the power is. -/
theorem defined_of_powerDefined (known : s.PowerDefined J b e) : s.Defined J .power [b, e] := by
  refine ⟨by simp, ?_, by simp [Op.InDomain]⟩
  rintro _ _ _ ⟨⟩
  exact known

/-- The application of a division is defined if the quotient is known. -/
theorem defined_of_quotientKnown (known : s.QuotientKnown J a b) : s.Defined J .div [a, b] := by
  refine ⟨?_, by simp, by simp [Op.InDomain]⟩
  rintro _ _ _ ⟨⟩
  exact known

/-- Heads other than division and powers are defined everywhere but for functions. -/
theorem defined_of_function (quotient : op ≠ .div) (power : op ≠ .power)
    (function : ∀ a, args = [a] → op.InDomain (s.meaning J a).num) : s.Defined J op args :=
  ⟨fun _ _ head => absurd head quotient, fun _ _ head => absurd head power, function⟩

/-- A total head is defined everywhere. -/
theorem defined_of_isTotal (total : op.isTotal) : s.Defined J op args := by
  refine defined_of_function ?_ ?_ fun a _ => ?_
  · rintro rfl
    cases total
  · rintro rfl
    cases total
  · cases op <;> trivial

end Store
end Stratagem
