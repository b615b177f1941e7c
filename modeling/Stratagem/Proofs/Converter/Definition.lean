import Stratagem.Proofs.Evaluation
import Stratagem.Proofs.Rewriting.Memory
import Stratagem.Proofs.Tactic.Elimination

/-!
# Models completed by definitions

A model gives terms without constants to constants; these have one value, and the constants without
a term are false or zero. Evaluating a definition in a model gives a term without constants that has
the value of the definition. So a model that is extended by definitions, the last one first, gives
the constants the values of their definitions.
-/
namespace Stratagem

open Store (Extends)

namespace Assignment

variable {I J : Assignment} {name : String} {sort : TermSort}

/-- The value of a constant is one of its sort. -/
theorem hasSort_constant (known : sort = .bool ∨ sort.isArith) :
    (I.constant name sort).HasSort sort := by
  cases sort with
  | bool | real => trivial
  | int => exact ⟨_, rfl⟩
  | _ => simp [TermSort.isArith] at known

/-- Assignments are the same if they give the same values to all constants. -/
theorem eq_of_constant (same : ∀ name sort, sort = .bool ∨ sort.isArith →
    I.constant name sort = J.constant name sort) : I = J := by
  obtain ⟨truth, integer, real⟩ := I
  obtain ⟨truth', integer', real'⟩ := J
  have truths : truth = truth' := funext fun name => Value.truth.inj (same name .bool (.inl rfl))
  have integers : integer = integer' := funext fun name =>
    Int.cast_injective (Value.number.inj (same name .int (.inr rfl)))
  have reals : real = real' := funext fun name => Value.number.inj (same name .real (.inr rfl))
  rw [truths, integers, reals]

end Assignment

/-- The signature without constants. -/
def Signature.ground : Signature := ⟨fun _ _ => False, True⟩

namespace Store

variable {s after : Store} {Γ : Signature} {t u c : TermId} {v : Scalar} {I J : Assignment}
  {name : String}

/-- A term without constants has one value. -/
theorem WellSorted.value_ground (sorted : s.WellSorted .ground t) (I J : Assignment) :
    s.value I t = s.value J t := sorted.value_congr fun _ _ absurd => absurd.elim

/-- A literal is a term without constants. -/
theorem Literal.wellSorted (literal : s.Literal v u) (known : v.sort = .bool ∨ v.sort.isArith) :
    s.WellSorted Γ u := by
  obtain ⟨head, arguments⟩ := view_eq_iff.mp literal.view
  refine .intro literal.inside ?_ (by rw [arguments]; nofun)
  rw [head, arguments, literal.sort]
  cases v with
  | word => simp [Scalar.sort, TermSort.isArith] at known
  | _ => rfl

/-- The literal of the default value of a sort is false or zero. -/
theorem Literal.value_default {sort : TermSort} (literal : s.Literal v u)
    (default : sort.default? = some v) (known : sort = .bool ∨ sort.isArith) :
    s.value I u = (Inhabited.default : Assignment).constant name sort := by
  obtain ⟨head, arguments⟩ := view_eq_iff.mp literal.view
  rw [value_eq, head, arguments]
  cases sort with
  | bool =>
    cases default
    exact congrArg Value.truth (propext ⟨Bool.false_ne_true, False.elim⟩)
  | int =>
    cases default
    rfl
  | real =>
    cases default
    exact congrArg Value.number Rat.cast_zero
  | _ => simp [TermSort.isArith] at known

/-- A constant that is defined has a sort of booleans or numbers. -/
theorem IsDefinition.sort_cases {d : Definition} (known : s.IsDefinition Γ d) :
    s.sortOf d.1 = .bool ∨ (s.sortOf d.1).isArith := known.sort_eq ▸ known.sorted.sort_cases

/-- A constant has its value. -/
theorem value_of_node (node : s.node c = ⟨.var name, [], s.sortOf c⟩) (I : Assignment) :
    s.value I c = I.constant name (s.sortOf c) := by
  rw [value_eq, op, node]
  rfl

end Store

namespace Model

open Terms

variable {m : Model} {s after : Store} {Γ : Signature} {c u t : TermId} {name : String}
  {sort : TermSort} {I : Assignment}

/-- A model gives terms without constants to constants of their sorts, one to each. -/
structure Ground (m : Model) (s : Store) : Prop where
  /-- No constant has two entries. -/
  distinct : (m.entries.map Prod.fst).Nodup
  /-- Constants have terms of their sorts without constants. -/
  definitions : ∀ c u, m.get? c = some u → s.IsDefinition .ground (c, u)

namespace Ground

/-- A model gives terms without constants also when the store grows. -/
theorem mono (ground : m.Ground s) (grown : s.Extends after) : m.Ground after :=
  ⟨ground.distinct, fun c u found => (ground.definitions c u found).mono grown⟩

/-- A constant gets a term without constants. -/
theorem insert (ground : m.Ground s) (known : s.IsDefinition .ground (c, u)) :
    (m.insert c u).Ground s where
  distinct := (m.insert c u).nodup
  definitions k w found := by
    rw [get?_insert] at found
    split at found
    · next same =>
      obtain rfl := Option.some.inj found
      exact same ▸ known
    · exact ground.definitions k w found

/-- Constants and their terms are in the store. -/
theorem within (ground : m.Ground s) : m.Within s := fun c u found =>
  have known := ground.definitions c u found
  ⟨known.inside, known.sorted.inside⟩

end Ground

/-- The value that a model gives to a constant, which is false or zero if it gives none. -/
noncomputable def valueOf (m : Model) (s : Store) (name : String) (sort : TermSort) : Value :=
  ((m.constant? s name sort).map (s.value default)).getD
    ((default : Assignment).constant name sort)

/-- The assignment that a model gives: constants without a term are false or zero. -/
noncomputable def assignment (m : Model) (s : Store) : Assignment where
  truth name := (m.valueOf s name .bool).holds
  integer name := ⌊(m.valueOf s name .int).num⌋
  real name := (m.valueOf s name .real).num

/-- The value of a constant of the store. -/
theorem valueOf_eq (node : s.node c = ⟨.var name, [], sort⟩) : m.valueOf s name sort =
    ((m.get? c).map (s.value default)).getD ((default : Assignment).constant name sort) := by
  rw [valueOf, constant?_eq_get? node]

/-- The value of a constant that is not in the store. -/
theorem valueOf_of_absent (absent : ∀ c, s.node c ≠ ⟨.var name, [], sort⟩) :
    m.valueOf s name sort = (default : Assignment).constant name sort := by
  rw [valueOf, constant?_eq_none absent]
  rfl

/-- The value that a model gives to a constant is one of its sort. -/
theorem Ground.hasSort_valueOf (ground : m.Ground s) (known : sort = .bool ∨ sort.isArith) :
    (m.valueOf s name sort).HasSort sort := by
  by_cases present : ∃ c, s.node c = ⟨.var name, [], sort⟩
  · obtain ⟨c, node⟩ := present
    rw [valueOf_eq node]
    cases found : m.get? c with
    | none => exact Assignment.hasSort_constant known
    | some u =>
      have defined := ground.definitions c u found
      have same : s.sortOf u = sort := defined.sort_eq.trans (congrArg Node.sort node)
      exact same ▸ defined.sorted.hasSort
  · rw [valueOf_of_absent fun c node => present ⟨c, node⟩]
    exact Assignment.hasSort_constant known

/-- The assignment gives a constant the value that the model gives to it. -/
theorem Ground.constant_assignment (ground : m.Ground s) (known : sort = .bool ∨ sort.isArith) :
    (m.assignment s).constant name sort = m.valueOf s name sort := by
  have typed : (m.valueOf s name sort).HasSort sort := ground.hasSort_valueOf known
  cases sort with
  | bool => exact (Value.eq_truth typed).symm
  | int =>
    obtain ⟨n, whole⟩ := Value.mem_integers.mp (Value.num_mem_integers typed)
    rw [Value.eq_number rfl typed]
    show Value.number ((⌊(m.valueOf s name .int).num⌋ : ℤ) : ℝ) = _
    rw [whole, Int.floor_intCast]
  | real => exact (Value.eq_number rfl typed).symm
  | _ => simp [TermSort.isArith] at known

/-- The value of a constant with a term is the value of the term. -/
theorem Ground.value_of_get? (ground : m.Ground s) (found : m.get? c = some u) (I : Assignment) :
    s.value (m.assignment s) c = s.value I u := by
  have defined := ground.definitions c u found
  obtain ⟨name, node⟩ := defined.constant
  rw [Store.value_of_node node, ground.constant_assignment defined.sort_cases, valueOf_eq node, found]
  exact defined.sorted.value_ground _ _

/-- A constant without a term is false or zero. -/
theorem Ground.value_of_absent (ground : m.Ground s)
    (node : s.node c = ⟨.var name, [], s.sortOf c⟩)
    (known : s.sortOf c = .bool ∨ (s.sortOf c).isArith) (absent : m.get? c = none) :
    s.value (m.assignment s) c = (default : Assignment).constant name (s.sortOf c) := by
  rw [Store.value_of_node node, ground.constant_assignment known, valueOf_eq node, absent]
  rfl

/-- The assignment stays the same when the store grows. -/
theorem Ground.assignment_eq (ground : m.Ground s) (grown : s.Extends after) :
    m.assignment after = m.assignment s := by
  refine Assignment.eq_of_constant fun name sort known => ?_
  rw [(ground.mono grown).constant_assignment known, ground.constant_assignment known, valueOf,
    constant?_congr ground.within grown fun _ _ => rfl, valueOf]
  by_cases present : ∃ c, s.node c = ⟨.var name, [], sort⟩
  · obtain ⟨c, node⟩ := present
    rw [constant?_eq_get? node]
    cases found : m.get? c with
    | none => rfl
    | some u => exact grown.value_eq _ (ground.definitions c u found).sorted.inside
  · rw [constant?_eq_none fun c node => present ⟨c, node⟩]
    rfl

/-- The assignment after a constant gets a term. -/
theorem Ground.assignment_insert (ground : m.Ground s) (defined : s.IsDefinition .ground (c, u)) :
    (m.insert c u).assignment s = s.define (m.assignment s) (c, u) := by
  obtain ⟨own, node⟩ := defined.constant
  refine Assignment.eq_of_constant fun name sort known => ?_
  rw [(ground.insert defined).constant_assignment known, Store.define_eq node]
  by_cases same : name = own ∧ sort = s.sortOf c
  · obtain ⟨rfl, rfl⟩ := same
    rw [valueOf_eq node, get?_insert, if_pos rfl, Assignment.constant_assign _ known]
    · exact defined.sorted.value_ground _ _
    · exact defined.sort_eq ▸ defined.sorted.hasSort
  · rw [Assignment.constant_assign_of_ne same known, ground.constant_assignment known]
    by_cases present : ∃ k, s.node k = ⟨.var name, [], sort⟩
    · obtain ⟨k, there⟩ := present
      have other : k ≠ c := by
        rintro rfl
        obtain ⟨rfl, rfl⟩ : own = name ∧ s.sortOf k = sort := by
          simpa using node.symm.trans there
        exact same ⟨rfl, rfl⟩
      rw [valueOf_eq there, valueOf_eq there, get?_insert, if_neg other]
    · have absent : ∀ k, s.node k ≠ ⟨.var name, [], sort⟩ := fun k node => present ⟨k, node⟩
      rw [valueOf_of_absent absent, valueOf_of_absent absent]

/-- A constant has a term without constants that has its value. -/
def Fills (s : Store) (I : Assignment) (c u : TermId) : Prop :=
  s.IsDefinition .ground (c, u) ∧ s.value I u = s.value I c

/-- Terms have the values of constants also when the store grows. -/
theorem Fills.mono (fills : Fills s I c u) (grown : s.Extends after) : Fills after I c u := by
  obtain ⟨defined, same⟩ := fills
  refine ⟨defined.mono grown, ?_⟩
  rw [grown.value_eq I defined.sorted.inside, grown.value_eq I defined.inside, same]

/-- All constants of a term get terms without constants that have their values. -/
theorem complete_fills (ground : m.Ground s) (sorted : s.WellSorted Γ t) :
    (complete (.ofList m.entries) (s.freeConstants t)).Ensures s fun map after =>
      (∀ c u, map[c]? = some u → Fills after (m.assignment s) c u) ∧
      ∀ c name, s.Occurs c t → s.op c = .var name → map.contains c = true := by
  have occurring : ∀ c ∈ s.freeConstants t, s.WellSorted Γ c ∧
      ∃ name, s.node c = ⟨.var name, [], s.sortOf c⟩ := by
    intro c member
    obtain ⟨occurs, name, var⟩ := Store.occurs_of_mem_freeConstants member
    have known := sorted.of_mem_occurs occurs
    exact ⟨known, name, by rw [← var, ← known.args_of_var var]; rfl⟩
  refine (complete_ensures (n := t + 1) (fun c u before after grown fills => fills.mono grown)
    (fun c u found => ?_) (fun c member => ?_) fun c member absent now grown => ?_).imp
    fun map after _ found => ⟨found.1, fun c name occurs var => found.2.1 c (.inr ?_)⟩
  · rw [getElem?_ofList ground.distinct] at found
    exact ⟨ground.definitions c u found, (ground.value_of_get? found _).symm⟩
  · exact Nat.lt_succ_of_le (Store.occurs_of_mem_freeConstants member).1.le
  · obtain ⟨known, name, node⟩ := occurring c member
    rw [getElem?_ofList ground.distinct] at absent
    rw [grown.sortOf_eq known.inside]
    obtain ⟨v, default⟩ : ∃ v, (s.sortOf c).default? = some v := by
      rcases known.sort_cases with bool | arith
      · exact ⟨_, by rw [bool]; rfl⟩
      · cases sort : s.sortOf c <;> simp_all [TermSort.isArith, TermSort.default?]
    refine (defaultOf_literal default).imp fun _ after more result => ?_
    obtain ⟨⟨u, rfl, literal⟩, one⟩ := result
    have later := grown.trans more
    have sort : v.sort = s.sortOf c := TermSort.sort_of_default? default
    refine ⟨⟨u, rfl, ⟨⟨name, ?_⟩, later.lt_size known.inside,
      literal.wellSorted (sort ▸ known.sort_cases), ?_⟩, ?_⟩, one⟩
    · rw [later.node_eq known.inside, later.sortOf_eq known.inside, node]
    · rw [literal.sort, sort, later.sortOf_eq known.inside]
    · rw [later.value_eq _ known.inside, ground.value_of_absent node known.sort_cases absent]
      exact literal.value_default default known.sort_cases
  · exact Store.mem_freeConstants sorted.plain occurs var

/-- Putting terms without constants in the place of all constants of a term. -/
theorem substitute_fills {map : Substitution} (sorted : s.WellSorted Γ t)
    (fills : ∀ c u, map[c]? = some u → Fills s I c u)
    (covered : ∀ c name, s.Occurs c t → s.op c = .var name → map.contains c = true) :
    (substitute t map).Ensures s fun u after => after.Stands .ground I I u t := by
  let Δ : Signature :=
    ⟨fun name sort => ∃ c u : TermId, map[c]? = some u ∧ s.node c = ⟨.var name, [], sort⟩, True⟩
  have inside : s.WellSorted Δ t := by
    refine sorted.of_occurs (fun _ => trivial) fun c name occurs var _ => ?_
    have present := covered c name occurs var
    rw [Std.HashMap.contains_eq_isSome_getElem?] at present
    obtain ⟨u, found⟩ := Option.isSome_iff_exists.mp present
    refine ⟨c, u, found, ?_⟩
    rw [← var, ← (sorted.of_mem_occurs occurs).args_of_var var]
    rfl
  cases empty : map.isEmpty with
  | false =>
    refine substitute_ensures (Γ := Δ) ?_ inside empty
    refine ⟨fun c u found => ?_, fun c u found => (fills c u found).1.sorted,
      fun c u found => (fills c u found).1.sort_eq, fun c u found => (fills c u found).2, ?_,
      fun _ => trivial⟩
    · obtain ⟨name, node⟩ := (fills c u found).1.constant
      exact ⟨name, _, node⟩
    · rintro name sort ⟨c, u, found, node⟩ _ absent
      exact absurd node (absent c u found)
  | true =>
    -- Without a term for any constant there is no constant, and the term stays as it is.
    have closed : s.WellSorted .ground t := by
      refine inside.mono_within (.refl s) ⟨fun name sort known => ?_, fun _ => trivial⟩
      obtain ⟨c, u, found, _⟩ := known
      rw [Std.HashMap.getElem?_of_isEmpty empty] at found
      cases found
    unfold substitute
    rw [if_pos empty]
    exact ensures_pure ⟨⟨closed.inside, closed, rfl, fun _ _ => rfl⟩, rfl⟩

/-- The steps that evaluation is allowed. -/
def stepLimit : ℕ := SimplifierConfig.maxSteps {}

/-- Simplifying a well-sorted term keeps its value, unless it takes too many steps. -/
theorem simplify_replaces (sorted : s.WellSorted Γ t) : (Terms.simplify t).Ensures s
    fun outcome after => outcome = .error (.stepsExceeded stepLimit) ∨
      ∃ u, outcome = .ok u ∧ after.Replaces Γ.strict u t := by
  have ran : (Rewriting.simplifyWithin .unbounded ({} : Simplifier).config.maxSteps t).Ensures {} s
      (fun u _ after => after.Replaces Γ.strict u t)
      fun e _ _ => e = .stepsExceeded stepLimit := by
    have recalls : Rewriting.Recalls {} False {} s := .of_empty rfl False.elim rfl
    refine ((Rewriting.simplifyWithin_ensures (Simplifier.sound_of_empty rfl)).and
      (Rewriting.simplifyWithin_visits recalls)).imp
      (fun u r after _ found => found.1.2 Γ sorted)
      fun e r after _ failed => failed.2.2 sorted.inside rfl
  have attempted : (Attempt.runFrom (Rewriting.simplify t) {}).Ensures s fun result after =>
      result.1 = .error (.stepsExceeded stepLimit) ∨
        ∃ u, result.1 = .ok u ∧ after.Replaces Γ.strict u t := by
    have ensured := Rewriting.simplify_ensures ran
    unfold Attempt.Ensures at ensured
    refine ensured.imp fun result after _ known => ?_
    obtain ⟨outcome, r⟩ := result
    cases outcome with
    | ok u => exact .inr ⟨u, rfl, known⟩
    | error e => exact .inl (congrArg Except.error known)
  exact ensures_bind attempted fun _ _ _ found => ensures_pure found

/-- Evaluation with completion gives a term without constants that has the value of the term under
the assignment of the model, unless it takes too many steps. -/
theorem eval_ground (ground : m.Ground s) (sorted : s.WellSorted Γ t) :
    (m.eval t true).Ensures s fun outcome after =>
      outcome = .error (.stepsExceeded stepLimit) ∨
        ∃ u, outcome = .ok u ∧ after.WellSorted .ground u ∧ after.sortOf u = s.sortOf t ∧
          after.value (m.assignment s) u = s.value (m.assignment s) t := by
  unfold eval
  refine ensures_read_bind (ensures_bind (complete_fills ground sorted) fun map middle grown found => ?_)
  obtain ⟨fills, covered⟩ := found
  have covered : ∀ c name, middle.Occurs c t → middle.op c = .var name →
      map.contains c = true := by
    intro c name occurs var
    have occurs := (grown.occurs_iff sorted.inside).mp occurs
    rw [grown.op_eq (sorted.of_mem_occurs occurs).inside] at var
    exact covered c name occurs var
  refine ensures_bind (substitute_fills (sorted.mono grown) fills covered) fun image last more stands => ?_
  refine (simplify_replaces stands.sorted).imp fun outcome after further result => ?_
  refine result.imp id fun ⟨u, done, replaces⟩ => ⟨u, done, ?_, ?_, ?_⟩
  · exact replaces.sorted.mono_within (.refl after) (Signature.strict_within _)
  · rw [replaces.sort_eq, further.sortOf_eq stands.sorted.inside, stands.sort_eq,
      (grown.trans more).sortOf_eq sorted.inside]
  · rw [replaces.value_eq, further.value_eq _ stands.sorted.inside, stands.value_eq,
      (grown.trans more).value_eq _ sorted.inside]

end Model

namespace ModelConverter

open Attempt Model

variable {m : Model} {s : Store} {Γ : Signature}

/-- Definitions extend a model: constants have the values of their definitions, the last one first,
unless evaluating these takes too many steps. -/
theorem define_ensures {defs : List Definition} (ground : m.Ground s)
    (definitions : ∀ d ∈ defs, s.IsDefinition Γ d) :
    (define defs).Ensures m s (fun _ m' after => m'.Ground after ∧
      m'.assignment after = s.extended (m.assignment s) defs)
      fun e _ _ => e = .stepsExceeded Model.stepLimit := by
  induction defs with
  | nil => exact ensures_pure ⟨ground, rfl⟩
  | cons d rest tail =>
    obtain ⟨here, others⟩ := List.forall_mem_cons.mp definitions
    unfold define
    refine ensures_bind (tail others) fun _ m₁ middle grown known => ?_
    obtain ⟨ground, same⟩ := known
    have here' := here.mono grown
    refine ensures_get_bind (ensures_build_bind (eval_ground ground here'.sorted)
      fun outcome last more found => ?_)
    rcases found with rfl | ⟨u, rfl, closed, sort, value⟩
    · exact ensures_throw_bind rfl
    · have defined : last.IsDefinition .ground (d.1, u) := by
        have later := here'.mono more
        refine ⟨later.constant, later.inside, closed, ?_⟩
        rw [sort, here'.sort_eq, more.sortOf_eq here'.inside]
      have ground' := ground.mono more
      refine ensures_pure_bind ⟨ground'.insert defined, ?_⟩
      have value : last.value (m₁.assignment middle) u = last.value (m₁.assignment middle) d.2 := by
        rw [value, more.value_eq _ here'.sorted.inside]
      show (m₁.insert d.1 u).assignment last = s.define (s.extended (m.assignment s) rest) d
      rw [ground'.assignment_insert defined, ground.assignment_eq more, ← same,
        ← here.define_eq (grown.trans more), Store.define, Store.define, value]

end ModelConverter

end Stratagem
