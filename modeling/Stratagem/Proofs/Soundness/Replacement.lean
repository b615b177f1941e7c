import Stratagem.Proofs.Rewriting.Simplifier
import Stratagem.Proofs.Soundness.Valuation

/-!
# Replacements in arithmetic

A term in a language that is defined stays so when its arguments are replaced by others of the same
sorts and values. Whether a quotient or a power is in the language and known depends on more than
sorts and values: on literals and constants, which only stand for themselves.
-/
namespace Stratagem

open Store (Extends)

namespace Store

variable {L : Language} {J : Valuation} {s after : Store} {t u w a b e : TermId}
  {sort : TermSort} {op : Op} {args args' : List TermId}

/-- A term takes the place of another one: it is in the language and defined, and has the sort and
the value of the other one; a constant or a literal is only replaced by itself. -/
structure TakesPlace (s : Store) (L : Language) (J : Valuation) (u t : TermId) : Prop where
  /-- The term that is replaced is in the store. -/
  inside : t < s.size
  /-- The replacement is in the language and defined. -/
  sensible : s.Sensible L J u
  /-- The sorts agree. -/
  sort_eq : s.sortOf u = s.sortOf t
  /-- The values agree. -/
  value_eq : s.meaning J u = s.meaning J t
  /-- Constants and literals stay. -/
  atom : (s.op t).isAtom → u = t

namespace TakesPlace

/-- A term takes its own place. -/
theorem refl (sensible : s.Sensible L J t) : s.TakesPlace L J t t :=
  ⟨sensible.inside, sensible, rfl, rfl, fun _ => rfl⟩

/-- What takes a place does so when the store grows. -/
theorem mono (known : s.TakesPlace L J u t) (grown : s.Extends after) :
    after.TakesPlace L J u t where
  inside := grown.lt_size known.inside
  sensible := known.sensible.mono grown
  sort_eq := by
    rw [grown.sortOf_eq known.sensible.inside, grown.sortOf_eq known.inside, known.sort_eq]
  value_eq := by
    rw [grown.meaning_eq known.sensible.inside, grown.meaning_eq known.inside, known.value_eq]
  atom head := known.atom (by rwa [← grown.op_eq known.inside])

/-- What takes the place of a replacement takes the place of what is replaced. -/
theorem trans (second : s.TakesPlace L J w u) (first : s.TakesPlace L J u t) :
    s.TakesPlace L J w t where
  inside := first.inside
  sensible := second.sensible
  sort_eq := second.sort_eq.trans first.sort_eq
  value_eq := second.value_eq.trans first.value_eq
  atom head := by
    obtain rfl := first.atom head
    exact second.atom head

/-- A rational literal is replaced by itself. -/
theorem of_numeral? {r : ℚ} (known : s.TakesPlace L J u t) (literal : s.numeral? t = some r) :
    u = t := by
  refine known.atom ?_
  unfold numeral? at literal
  split at literal
  · next head => rw [head]; rfl
  · next head => rw [head]; rfl
  · cases literal

end TakesPlace

variable (places : List.Forall₂ (s.TakesPlace L J) args' args)
include places

/-- Replaced arguments have the values of the arguments. -/
theorem map_meaning_of_takesPlace :
    args'.map (s.meaning J) = args.map (s.meaning J) := by
  rw [← List.forall₂_eq_eq_eq, List.forall₂_map_left_iff, List.forall₂_map_right_iff]
  exact places.imp fun _ _ known => known.value_eq

/-- Sorts fit together when arguments are replaced. -/
theorem SortsFit.replace (known : s.SortsFit sort op args) : s.SortsFit sort op args' := by
  have fits (fits : s.Fits ⟨fun _ _ => False, False⟩ sort op args) :=
    fits.replace (places.imp fun u t known =>
      ⟨known.sort_eq, fun n head => known.atom (by rw [head]; rfl)⟩)
  revert known
  match args, args', places with
  | [], [], .nil => exact id
  | [a], [a'], .cons first .nil =>
    have same := first.sort_eq
    unfold SortsFit
    split <;> simp_all
    grind
  | [a, b], [a', b'], .cons first (.cons second .nil) =>
    have := first.sort_eq
    have := second.sort_eq
    unfold SortsFit
    split <;> simp_all [arithJoin, isInt]
  | _ :: _ :: _ :: _, _ :: _ :: _ :: _, _ =>
    unfold SortsFit
    split <;> simp_all

omit places

/-- A power is in a language when base and exponent are replaced. -/
theorem PowerFits.replace {b' e' : TermId} (known : s.PowerFits L sort b e)
    (base : s.TakesPlace L J b' b) (exponent : s.TakesPlace L J e' e) :
    s.PowerFits L sort b' e' := by
  obtain one | ⟨r, literal, fits⟩ := known
  · obtain rfl := base.of_numeral? (isOne_iff.mp one.1)
    exact .inl one
  · obtain rfl := exponent.of_numeral? literal
    exact .inr ⟨r, literal, fun whole => base.sort_eq.trans (fits.integral whole), fits.negative,
      fits.fraction⟩

/-- A quotient is known when dividend and divisor are replaced. -/
theorem QuotientKnown.replace {a' b' : TermId} (known : s.QuotientKnown J a b)
    (dividend : s.TakesPlace L J a' a) (divisor : s.TakesPlace L J b' b) :
    s.QuotientKnown J a' b' := by
  obtain nonzero | atom | atom | all := known
  · exact .inl (by rwa [divisor.value_eq])
  · obtain rfl := dividend.atom atom
    exact .inr (.inl atom)
  · obtain rfl := divisor.atom atom
    exact .inr (.inr (.inl atom))
  · exact .inr (.inr (.inr all))

/-- A power is defined when base and exponent are replaced. -/
theorem PowerDefined.replace {b' e' : TermId} (known : s.PowerDefined J b e)
    (fits : s.PowerFits L sort b e) (base : s.TakesPlace L J b' b)
    (exponent : s.TakesPlace L J e' e) : s.PowerDefined J b' e' := by
  intro r literal'
  obtain ⟨one, _⟩ | ⟨r, literal, _⟩ := fits
  · have value : (s.meaning J b').num = 1 := by
      rw [base.value_eq, meaning_of_numeral? (isOne_iff.mp one)]
      simp
    rw [value]
    exact ⟨fun _ => zero_le_one, fun _ => one_ne_zero⟩
  · obtain rfl := exponent.of_numeral? literal
    rw [base.value_eq]
    exact known _ literal'

include places

/-- An application is admitted when its arguments are replaced. -/
theorem Admits.replace (known : s.Admits L sort op args) : s.Admits L sort op args' where
  sorts := known.sorts.replace places
  equations := known.equations
  irrational := known.irrational
  function := known.function
  power b' e' head arguments := by
    subst arguments
    cases places with
    | cons base rest =>
    cases rest with
    | cons exponent rest =>
    cases rest
    exact (known.power _ _ head rfl).replace base exponent

/-- An application is defined when its arguments are replaced. -/
theorem Defined.replace (known : s.Defined J op args) (admits : s.Admits L sort op args) :
    s.Defined J op args' where
  quotient a' b' head arguments := by
    subst arguments
    cases places with
    | cons dividend rest =>
    cases rest with
    | cons divisor rest =>
    cases rest
    exact (known.quotient _ _ head rfl).replace dividend divisor
  power b' e' head arguments := by
    subst arguments
    cases places with
    | cons base rest =>
    cases rest with
    | cons exponent rest =>
    cases rest
    exact (known.power _ _ head rfl).replace (admits.power _ _ head rfl) base exponent
  function a' arguments := by
    subst arguments
    cases places with
    | cons argument rest =>
    cases rest
    rw [argument.value_eq]
    exact known.function _ rfl

omit places

/-- An atom whose sorts fit has no arguments. -/
theorem SortsFit.args_of_isAtom (known : s.SortsFit sort op args) (atom : op.isAtom) :
    args = [] := by
  cases op <;> cases atom <;> cases args <;> simp_all [SortsFit, Fits, Op.isCommon, Op.function?]

/-- The sort of an application of arithmetic is computed from its arguments. -/
theorem SortsFit.inferSort_eq (known : s.SortsFit sort op args)
    (constant : ∀ name, op ≠ .var name) : s.inferSort op args = sort := by
  revert known
  unfold SortsFit
  split
  case h_1 name => exact absurd rfl (constant name)
  case h_11 =>
    rintro (⟨common, fits⟩ | ⟨function, rfl, _⟩)
    · exact Terms.inferSort_of_isCommon fits common
    · revert function
      cases op <;> simp [Op.function?, inferSort]
  all_goals simp +contextual [inferSort]

end Store

namespace Terms

open Store

variable {L : Language} {J : Valuation} {s : Store} {t : TermId} {args : List TermId}

/-- Rebuilding a term with replaced arguments gives a term that takes its place. -/
theorem rebuild_takesPlace (sensible : s.Sensible L J t)
    (places : List.Forall₂ (s.TakesPlace L J) args (s.args t)) :
    (rebuild t args).Ensures s fun u after => after.TakesPlace L J u t := by
  have sorts := sensible.admits.sorts
  unfold rebuild
  refine ensures_read_bind ?_
  dsimp only
  split
  · exact ensures_pure (.refl sensible)
  next different =>
  have changed : s.args t ≠ args := different
  have compound : ¬(s.op t).isAtom := by
    intro atom
    have none := sorts.args_of_isAtom atom
    rw [none] at places
    cases places
    exact changed none
  split
  · next own =>
    have own : (s.op t).hasOwnSort := own
    revert sorts own
    cases s.op t with
    | apply | universal | existential => simp [SortsFit, Op.isCommon, Op.function?]
    | _ =>
      intro _ own
      cases own
  · have inferred : s.inferSort (s.op t) args = s.sortOf t :=
      (sorts.replace places).inferSort_eq fun name head => compound (by rw [head]; rfl)
    have arguments : ∀ a ∈ args, s.Sensible L J a := by
      intro a member
      obtain ⟨_, _, known⟩ := exists_of_forall₂ places member
      exact known.sensible
    refine (mkApp_evaluates _ (sensible.admits.replace places)
      (sensible.defined.replace places sensible.admits) arguments inferred rfl).imp
      fun u after grown denotes => ?_
    refine ⟨grown.lt_size sensible.inside, denotes.sorted, ?_, ?_, fun atom => ?_⟩
    · rw [denotes.sort_eq, grown.sortOf_eq sensible.inside]
    · rw [grown.meaning_eq sensible.inside, meaning_eq J s t,
        ← map_meaning_of_takesPlace places]
      exact denotes.value_eq
    · rw [grown.op_eq sensible.inside] at atom
      exact absurd atom compound

end Terms
end Stratagem
