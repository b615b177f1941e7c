import Mathlib.Algebra.Ring.Nat
import Stratagem.Converter.Model
import Stratagem.Proofs.Reasoning

/-!
# Compositions of model converters

Composing converters is associative. Most converters do the same for every position of a subgoal:
only one that follows several subgoals looks at the position. If the first of two converters is of
this kind, the composition applies the second one at the position and then the first one, and it
does not matter whether the first is composed before or after the second is spread over several
subgoals. If it does look at the position, the composition gives it the first one, unless the second
converter has nothing to apply.
-/
namespace Stratagem.ModelConverter

variable {a b c : ModelConverter} {index : ℕ}

/-- A converter is the identity if it is seen to be. -/
theorem eq_identity (known : a.isIdentity = true) : a = identity := by
  cases a with
  | identity => rfl
  | _ => cases known

section Order

/-- Nothing before a converter. -/
@[simp] theorem identity_andThen (c : ModelConverter) : identity.andThen c = c := rfl

/-- Nothing after a converter. -/
@[simp] theorem andThen_identity (c : ModelConverter) : c.andThen identity = c := by cases c <;> rfl

/-- The composition of two converters that do something. -/
theorem andThen_of_ne (first : a ≠ identity) (second : b ≠ identity) :
    a.andThen b = concat (a.parts ++ b.parts) := by
  unfold andThen
  split
  · exact absurd rfl first
  · exact absurd rfl second
  · rfl

/-- Composing converters is associative. -/
theorem andThen_assoc (a b c : ModelConverter) :
    (a.andThen b).andThen c = a.andThen (b.andThen c) := by
  by_cases first : a = identity
  · rw [first, identity_andThen, identity_andThen]
  · by_cases second : b = identity
    · rw [second, andThen_identity, identity_andThen]
    · by_cases third : c = identity
      · rw [third, andThen_identity, andThen_identity]
      · have composed (parts : List ModelConverter) : concat parts ≠ identity := nofun
        rw [andThen_of_ne first second, andThen_of_ne second third,
          andThen_of_ne (composed _) third, andThen_of_ne first (composed _)]
        simp only [parts, List.append_assoc]

end Order

section Positions

/-- A converter that does the same for every position. -/
def Uniform (c : ModelConverter) : Prop := ∀ index, c.apply index = c.apply 0

/-- Doing nothing is the same for every position. -/
theorem uniform_identity : Uniform identity := fun _ => by rw [apply_identity, apply_identity]

/-- Defining constants is the same for every position. -/
theorem uniform_extension (defs : List (TermId × TermId)) : Uniform (extension defs) :=
  fun _ => by rw [apply, apply]

/-- Hiding constants is the same for every position. -/
theorem uniform_filter (hidden : List TermId) : Uniform (filter hidden) :=
  fun _ => by rw [apply, apply]

/-- Assembling constants is the same for every position. -/
theorem uniform_bits (constants : List (TermId × List TermId)) : Uniform (bits constants) :=
  fun _ => by rw [apply, apply]

/-- A converter does what its parts do. -/
theorem applyParts_parts (c : ModelConverter) (index : ℕ) :
    applyParts c.parts index = c.apply index := by
  cases c with
  | concat parts => rw [ModelConverter.parts, apply]
  | _ => exact applyParts_single ..

/-- The first part of a composition comes last. -/
theorem applyParts_cons (part : ModelConverter) (rest : List ModelConverter) :
    applyParts (part :: rest) 0 = (do
      applyParts rest 0
      part.apply 0) := by
  cases rest with
  | nil => simp only [applyParts, pure_bind]
  | cons next rest => rw [applyParts]

/-- The later parts of a composition, if there are any, see the position. -/
theorem applyParts_append (first : List ModelConverter) {second : List ModelConverter}
    (later : second ≠ []) (index : ℕ) : applyParts (first ++ second) index = (do
      applyParts second index
      applyParts first 0) := by
  induction first with
  | nil => simp only [List.nil_append, applyParts, bind_pure_unit]
  | cons part rest found =>
    have more : rest ++ second ≠ [] := List.append_ne_nil_of_right_ne_nil rest later
    obtain ⟨next, others, shape⟩ := List.exists_cons_of_ne_nil more
    rw [applyParts_cons, List.cons_append, shape, applyParts, ← shape, found, bind_assoc]

/-- Whether a converter has something to apply: it is not absent, and no composition of nothing. -/
def Active (c : ModelConverter) : Prop := c ≠ identity ∧ c ≠ concat []

/-- A converter that has something to apply has parts. -/
theorem Active.parts_ne_nil (active : b.Active) : b.parts ≠ [] := by
  cases b with
  | concat parts => exact fun none => active.2 (congrArg concat none)
  | _ => exact List.cons_ne_nil _ _

/-- A composition whose second converter has something to apply applies it at the position, and the
first one at the only position that the first tactic has left. -/
theorem andThen_apply_active (active : b.Active) (a : ModelConverter) (index : ℕ) :
    (a.andThen b).apply index = (do
      b.apply index
      a.apply 0) := by
  by_cases first : a = identity
  · rw [first, identity_andThen, apply, bind_pure_unit]
  · rw [andThen_of_ne first active.1, apply, applyParts_append _ active.parts_ne_nil,
      applyParts_parts, applyParts_parts]

/-- A composition whose second converter has nothing to apply gives the position to the first one. -/
theorem andThen_apply_idle (idle : ¬b.Active) (a : ModelConverter) (index : ℕ) :
    (a.andThen b).apply index = (do
      b.apply index
      a.apply index) := by
  by_cases absent : b = identity
  · rw [absent, andThen_identity, apply, pure_bind]
  · by_cases first : a = identity
    · rw [first, identity_andThen, apply, bind_pure_unit]
    · have empty : b = concat [] := not_not.mp fun other => idle ⟨absent, other⟩
      rw [andThen_of_ne first absent, empty, parts.eq_1, List.append_nil, apply, applyParts_parts,
        apply, applyParts, pure_bind]

/-- A composition applies its second converter at the position and then its first one, if that one
does not look at it. -/
theorem andThen_apply (uniform : a.Uniform) (b : ModelConverter) (index : ℕ) :
    (a.andThen b).apply index = (do
      b.apply index
      a.apply 0) := by
  by_cases active : b.Active
  · exact andThen_apply_active active a index
  · rw [andThen_apply_idle active, uniform]

/-- At the first position a composition applies the second converter and then the first one, whatever
they are. -/
theorem andThen_apply_zero (a b : ModelConverter) :
    (a.andThen b).apply 0 = (do
      b.apply 0
      a.apply 0) := by
  by_cases active : b.Active
  · exact andThen_apply_active active a 0
  · exact andThen_apply_idle active a 0

/-- A composition of converters that do not look at the position does not. -/
theorem Uniform.andThen (first : a.Uniform) (second : b.Uniform) : (a.andThen b).Uniform := by
  intro index
  rw [andThen_apply first, second, ← andThen_apply first]

/-- A composition applies the second converter at the position of the subgoal and the first one at
the only position that the first tactic has left, and the grouping of several compositions does not
matter. Where the second converter has nothing to apply the position goes to the first one instead,
so that must be the first position, or the first converter must not look at it. -/
theorem andThen_in_order (a b c : ModelConverter) (index : ℕ) :
    (b.Active ∨ a.Uniform ∨ index = 0 → (a.andThen b).apply index = (do
      b.apply index
      a.apply 0)) ∧
    ∀ index, ((a.andThen b).andThen c).apply index = (a.andThen (b.andThen c)).apply index := by
  refine ⟨?_, fun index => by rw [andThen_assoc]⟩
  rintro (active | uniform | rfl)
  · exact andThen_apply_active active a index
  · exact andThen_apply uniform b index
  · exact andThen_apply_zero a b

/-- A converter of a tactic that left one subgoal, after one that did, followed by that of a tactic
that left two: a model of the second of them. -/
theorem andThen_in_order_case :
    let a := split identity [⟨0, filter [2], 1⟩]
    let b := split identity [⟨0, identity, 2⟩]
    b.Active ∧ (a.andThen b).apply 1 = (do
      b.apply 1
      a.apply 0) :=
  ⟨⟨nofun, nofun⟩, (andThen_in_order _ _ identity 1).1 (.inl ⟨nofun, nofun⟩)⟩

/-- Where the later tactic left two subgoals and no converter, a model of the second subgoal is not
converted by the earlier tactic, which left one. -/
example (m : Model) : (((split identity [⟨0, filter [2], 1⟩]).andThen identity).convert 1 m).run
    .initial = ((.error (.internal "model converter has no subgoal 1"), m), .initial) := rfl

end Positions

section Spread

variable {branches : List (Branch ModelConverter)}

/-- The number of subgoals of some branches. -/
def total (branches : List (Branch ModelConverter)) : ℕ := (branches.map (·.count)).sum

/-- Branches that have nothing to convert only find the branch of a position. -/
theorem applyBranch_identity (idle : ∀ branch ∈ branches, branch.child = identity)
    (inside : index < total branches) :
    ∃ position, applyBranch branches index = pure (some position) := by
  induction branches generalizing index with
  | nil => exact absurd inside (Nat.not_lt_zero index)
  | cons branch rest later =>
    obtain ⟨here, others⟩ := List.forall_mem_cons.mp idle
    obtain ⟨parent, child, count⟩ := branch
    obtain rfl : child = identity := here
    rw [applyBranch]
    by_cases first : index < count
    · exact ⟨parent, by rw [if_pos first, apply, pure_bind]⟩
    · have inside : index < count + total rest := by simpa [total] using inside
      rw [if_neg first]
      exact later others (by omega)

/-- Converters over several subgoals do what they say also if none of them does anything. -/
theorem ofBranches_apply (parent : ModelConverter) (inside : index < total branches) :
    (ofBranches parent branches).apply index = (split parent branches).apply index := by
  unfold ofBranches
  split
  · next idle =>
    obtain ⟨first, others⟩ := Bool.and_eq_true_iff.mp idle
    obtain rfl := eq_identity first
    have none : ∀ branch ∈ branches, branch.child = identity :=
      fun branch member => eq_identity (List.all_eq_true.mp others branch member)
    obtain ⟨position, found⟩ := applyBranch_identity none inside
    simp only [apply, found, pure_bind]
  · rfl

/-- A converter that does not look at the position may be composed before or after the converters of
several subgoals are put together. -/
theorem ofBranches_andThen (uniform : a.Uniform) (b : ModelConverter)
    (inside : index < total branches) : (ofBranches (a.andThen b) branches).apply index =
      (a.andThen (ofBranches b branches)).apply index := by
  rw [andThen_apply uniform, ofBranches_apply _ inside, ofBranches_apply _ inside, apply, apply,
    bind_assoc]
  congr 1
  funext found
  cases found with
  | some position => exact andThen_apply uniform b position
  | none => rfl

end Spread

end Stratagem.ModelConverter
