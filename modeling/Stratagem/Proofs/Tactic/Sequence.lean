import Stratagem.Proofs.Converter.Composition
import Stratagem.Proofs.Goal
import Stratagem.Proofs.Tactic.Apply
import Stratagem.Proofs.Tactic.Depth
import Stratagem.Proofs.Term.Building

/-!
# Grouping of tactics that run one after the other

Running tactics one after the other is not associative: a subgoal that the second tactic satisfies
becomes the only one before the third tactic runs, so it matters whether the third tactic belongs to
the run on each subgoal. If the first tactic leaves at most one subgoal, the grouping does not
matter. What remains to be compared are converters: only the converter of a satisfied goal looks at
the position of the subgoal, and no tactic makes several subgoals of a satisfied goal.
-/
namespace Stratagem

open Store (Extends)

variable {s : Store} {g : Goal} {context : Context}

namespace Goal

/-- A goal without formulas and without a conflict is satisfied. -/
theorem isDecidedSat_iff : g.isDecidedSat = true ↔ g.entries = [] ∧ g.inconsistent = false := by
  simp [isDecidedSat]

/-- A satisfied goal has no slot to visit. -/
theorem visitFrom_of_satisfied {σ : Type} {visit : ℕ → Entry → Goal → Attempt σ Goal}
    (satisfied : g.isDecidedSat = true) (rounds slot : ℕ) :
    visitFrom visit rounds slot g = pure g := by
  obtain ⟨none, _⟩ := isDecidedSat_iff.mp satisfied
  cases rounds with
  | zero => rfl
  | succ rounds => simp only [visitFrom, none, List.getElem?_nil]

/-- A pass over a satisfied goal does nothing. -/
theorem visitAll_of_satisfied {σ : Type} {visit : ℕ → Entry → Goal → Attempt σ Goal}
    (satisfied : g.isDecidedSat = true) : visitAll visit g = pure g := by
  have short : g.size ≤ slotLimit := by
    rw [size, (isDecidedSat_iff.mp satisfied).1]
    exact Nat.zero_le _
  simp [visitAll, visitFrom_of_satisfied satisfied, short]

/-- Nothing in a satisfied goal is redundant. -/
theorem elimRedundancies_of_satisfied (satisfied : g.isDecidedSat = true) :
    g.elimRedundancies.Ensures s fun g' _ => g' = g := by
  obtain ⟨entries, models, proofs, cores, inconsistent, depth⟩ := g
  obtain ⟨rfl, rfl⟩ : entries = [] ∧ inconsistent = false := isDecidedSat_iff.mp satisfied
  exact Terms.ensures_read_bind (Terms.ensures_pure rfl)

/-- A formula that is not taken apart is its only conjunct. -/
theorem run_flatten_single {f : TermId} {proof : Option Proof}
    (whole : (split? (f, proof)).run s = (none, s)) :
    (flatten f proof).run s = ([(f, proof)], s) := by
  rw [flatten, Terms.run_bind, conjunctsOnto, Terms.run_bind, whole]
  rfl

/-- The literal `false` is its only conjunct. -/
theorem run_flatten_falseId (proof : Option Proof) :
    (flatten Store.falseId proof).run s = ([(Store.falseId, proof)], s) := by
  apply run_flatten_single
  have view : s.view Store.falseId = (.bool false, []) := by rw [Store.view, s.node_falseId.2]
  simp [split?, view]

/-- The literal `true` has no conjuncts. -/
theorem run_flatten_trueId (proof : Option Proof) : (flatten Store.trueId proof).run s = ([], s) := by
  have view : s.view Store.trueId = (.bool true, []) := by rw [Store.view, s.node_trueId.2]
  simp [flatten, conjunctsOnto, split?, view]

/-- Asserting a formula whose conjuncts are known and not `false`. -/
theorem run_assertEntry {e : Entry} {parts : List Part} (consistent : g.inconsistent = false)
    (flattened : (flatten e.formula (g.keptProof e.proof)).run s = (parts, s))
    (clean : falsePart? parts = none) : (g.assertEntry e).run s =
      ({ g with entries := g.entries ++ entriesOf parts (g.keptDeps e.deps) }, s) := by
  rw [assertEntry, consistent, if_neg Bool.false_ne_true, Terms.run_bind, flattened]
  dsimp only
  rw [clean]
  rfl

/-- Asserting a formula that is not taken apart appends it. -/
theorem run_assertEntry_single {f : TermId} (consistent : g.inconsistent = false)
    (whole : (split? (f, none)).run s = (none, s)) (distinct : f ≠ Store.falseId) :
    (g.assertEntry ⟨f, none, none⟩).run s =
      ({ g with entries := g.entries ++ [⟨f, none, none⟩] }, s) := by
  have noProof : g.keptProof none = none := by
    unfold keptProof
    split <;> rfl
  have noDeps : g.keptDeps none = none := by
    unfold keptDeps
    split <;> rfl
  have flattened : (flatten f (g.keptProof none)).run s = ([(f, none)], s) := by
    rw [noProof, run_flatten_single whole]
  have clean : falsePart? [(f, none)] = none := by simp [falsePart?, distinct]
  rw [run_assertEntry (e := ⟨f, none, none⟩) consistent flattened clean, noDeps]
  rfl

/-- Asserting `true` changes nothing. -/
theorem run_assertEntry_trueId (consistent : g.inconsistent = false) :
    (g.assertEntry ⟨Store.trueId, none, none⟩).run s = (g, s) := by
  rw [run_assertEntry (e := ⟨Store.trueId, none, none⟩) consistent (run_flatten_trueId _) rfl,
    entriesOf, List.map_nil, List.append_nil]

/-- Asserting `false` leaves `false` as a formula of the goal. -/
theorem assertEntry_falseId (proof : Option Proof) (deps : Option DependencySet)
    (consistent : g.inconsistent = false) : (g.assertEntry ⟨Store.falseId, proof, deps⟩).Ensures s
      fun g' _ => Store.falseId ∈ g'.formulas := by
  have flattened : (flatten Store.falseId (g.keptProof proof)).Ensures s
      fun parts _ => parts = [(Store.falseId, g.keptProof proof)] := by
    unfold Terms.Ensures
    rw [run_flatten_falseId]
  apply (assertEntry_ensures (e := ⟨Store.falseId, proof, deps⟩) flattened).imp
  intro g' after _ result
  rcases result with ⟨refuted, _⟩ | ⟨_, parts, only, found⟩
  · rw [consistent] at refuted
    cases refuted
  · rcases found with ⟨part, _, _, same⟩ | ⟨_, same⟩
    · rw [same]
      exact List.mem_singleton_self Store.falseId
    · rw [same, only]
      simp [formulas, entriesOf]

end Goal

namespace TacticResult

/-- What a tactic makes of satisfied goals: one satisfied subgoal. Only the converter of a satisfied
subgoal may look at the position. -/
structure Settles (g : Goal) (r : TacticResult) : Prop where
  /-- A satisfied goal becomes one satisfied subgoal. -/
  satisfied : g.isDecidedSat = true → ∃ g', r.goals = [g'] ∧ g'.isDecidedSat = true
  /-- The converter of a single subgoal does not look at the position, unless it is satisfied. -/
  uniform : ∀ g', r.goals = [g'] → g'.isDecidedSat = true ∨ r.models.Uniform

/-- A result with one subgoal, which is satisfied if the goal is, and with a converter that does not
look at the position. -/
theorem settles_single {g' : Goal} {models : ModelConverter} {proofs : ProofConverter}
    {core : Option DependencySet} (kept : g.isDecidedSat = true → g'.isDecidedSat = true)
    (uniform : models.Uniform) : Settles g ⟨[g'], models, proofs, core⟩ :=
  ⟨fun satisfied => ⟨g', rfl, kept satisfied⟩, fun _ _ => .inr uniform⟩

/-- The goal that stands for a satisfied one is satisfied. -/
theorem isDecidedSat_of_satisfied? {r : TacticResult} {final : Goal}
    (found : r.satisfied? g = some final) : final.isDecidedSat = true := by
  obtain ⟨goals, _, _, _⟩ := r
  rcases goals with _ | ⟨g', _ | ⟨_, _⟩⟩
  · obtain rfl : g.cleared = final := by simpa [satisfied?, isDecidedSat] using found
    rfl
  · have chosen : (if g'.isDecidedSat = true then some g' else none) = some final := found
    split at chosen
    · next satisfied => exact Option.some.inj chosen ▸ satisfied
    · cases chosen
  · simp [satisfied?, isDecidedSat] at found

/-- A result that is not satisfied has a subgoal. -/
theorem ne_nil_of_satisfied? {r : TacticResult} (undecided : r.satisfied? g = none) : r.goals ≠ [] := by
  intro none
  simp [satisfied?, isDecidedSat, none] at undecided

/-- Results that have subgoals have as many together at least. -/
theorem length_le_flatMap {results : List TacticResult}
    (each : ∀ r ∈ results, r.goals ≠ []) : results.length ≤ (results.flatMap (·.goals)).length := by
  induction results with
  | nil => exact Nat.zero_le _
  | cons r rest later =>
    obtain ⟨here, others⟩ := List.forall_mem_cons.mp each
    have one := List.length_pos_iff.mpr here
    have more := later others
    rw [List.flatMap_cons, List.length_append, List.length_cons]
    omega

/-- Results on several subgoals, none of which is satisfied, are collapsed or have several
subgoals. -/
theorem afterAll_settles {first : TacticResult} {results : List TacticResult}
    (known : Settles g first) (several : 1 < first.goals.length)
    (all : List.Forall₂ (fun g r => Settles g r ∧ r.satisfied? g = none) first.goals results) :
    (first.afterAll results).Ensures s fun outcome _ => ∀ r, outcome = .ok r → Settles g r := by
  have unsatisfied : ¬ g.isDecidedSat = true := by
    intro satisfied
    obtain ⟨g', only, _⟩ := known.satisfied satisfied
    rw [only] at several
    exact absurd several (Nat.lt_irrefl 1)
  have each : ∀ r ∈ results, r.goals ≠ [] := by
    intro r member
    obtain ⟨_, _, found⟩ := exists_of_forall₂ all.flip member
    exact ne_nil_of_satisfied? found.2
  have count := length_le_flatMap each
  rw [← all.length_eq] at count
  unfold afterAll
  dsimp only
  split
  · next template rest shape =>
    split
    · apply Terms.ensures_bind_of_all
      intro outcome after _
      refine Terms.ensures_pure fun r same => ?_
      cases outcome with
      | error e => cases same
      | ok refuted =>
        obtain rfl := Except.ok.inj same
        exact ⟨fun satisfied => absurd satisfied unsatisfied,
          fun _ _ => .inr ModelConverter.uniform_identity⟩
    · refine Terms.ensures_pure fun r same => ?_
      obtain rfl := Except.ok.inj same
      refine ⟨fun satisfied => absurd satisfied unsatisfied, fun g' only => ?_⟩
      have one : (results.flatMap (·.goals)).length = 1 := congrArg List.length only
      omega
  · next shape =>
    rw [shape, List.length_nil] at count
    omega

end TacticResult

namespace Tactic

open TacticResult Attempt

/-- The promise of every tactic to make one satisfied subgoal of a satisfied goal. -/
def settling : Promise where
  Pre _ _ := True
  Post g r _ := Settles g r
  pre_mono := fun _ _ => trivial
  post_mono := fun known _ => known
  keep := fun _ => settles_single id ModelConverter.uniform_identity
  subgoals := fun _ _ _ => trivial
  after := by
    intro g first g' r s known only next
    constructor
    · intro satisfied
      obtain ⟨g'', same, satisfied⟩ := known.satisfied satisfied
      obtain rfl : g' = g'' := by simpa [only] using same
      exact next.satisfied satisfied
    · intro g'' shape
      rcases next.uniform g'' shape with satisfied | second
      · exact .inl satisfied
      · rcases known.uniform g' only with satisfied | first
        · obtain ⟨h, same, satisfied⟩ := next.satisfied satisfied
          obtain rfl : h = g'' := List.singleton_inj.mp (same.symm.trans shape)
          exact .inl satisfied
        · exact .inr (first.andThen second)
  satisfiedAt := by
    intro g first done rest g' earlier r final s _ _ _ _ found
    have satisfied := isDecidedSat_of_satisfied? found
    exact ⟨fun _ => ⟨final, rfl, satisfied⟩, fun g'' same =>
      .inl (List.singleton_inj.mp same ▸ satisfied)⟩
  afterAll := fun known several all => afterAll_settles known several all

variable {σ : Type} {state : σ}

/-- What an attempt makes of a satisfied goal, if the goal is one. -/
theorem ensures_of_satisfied {work : Attempt σ Goal}
    (kept : g.isDecidedSat = true → work.Ensures state s
      (fun g' _ _ => g'.isDecidedSat = true) fun _ _ _ => True) :
    work.Ensures state s (fun g' _ _ => g.isDecidedSat = true → g'.isDecidedSat = true)
      fun _ _ _ => True := by
  by_cases satisfied : g.isDecidedSat = true
  · exact (kept satisfied).imp (fun _ _ _ _ now _ => now) fun _ _ _ _ _ => trivial
  · exact ensures_trivial.imp (fun _ _ _ _ _ now => absurd now satisfied) fun _ _ _ _ _ => trivial

/-- Dropping what is redundant keeps a satisfied goal. -/
theorem build_elimRedundancies (satisfied : g.isDecidedSat = true) :
    (Attempt.build g.elimRedundancies : Attempt σ Goal).Ensures state s
      (fun g' _ _ => g'.isDecidedSat = true) fun _ _ _ => True := by
  apply (ensures_build (Goal.elimRedundancies_of_satisfied satisfied)).imp
  · rintro g' _ _ _ ⟨_, rfl⟩
    exact satisfied
  · exact fun _ _ _ _ failed => failed

/-- A simplified goal is satisfied if the goal is. -/
theorem simplify_settles {r : Simplifier} : (Simplify.run context g).Ensures r s
    (fun result _ _ => Settles g result) fun _ _ _ => True := by
  unfold Simplify.run
  apply ensures_modify_bind
  split
  · exact ensures_pure (settles_single id ModelConverter.uniform_identity)
  · have reduced : (Simplify.simplifyAll context g).Ensures r.reset s
        (fun g' _ _ => g.isDecidedSat = true → g'.isDecidedSat = true) fun _ _ _ => True := by
      apply ensures_of_satisfied
      intro satisfied
      unfold Simplify.simplifyAll
      rw [Goal.visitAll_of_satisfied satisfied, pure_bind]
      exact build_elimRedundancies satisfied
    apply ensures_bind reduced
    intro g' _ _ _ kept
    exact ensures_pure (settles_single kept ModelConverter.uniform_identity)

/-- A goal without defined constants is satisfied if the goal is. -/
theorem solveEqs_settles (solver : EquationSolver) : (solver.run context g).Ensures s
    fun found _ => ∀ r, found.1 = .ok r → Settles g r := by
  have solved : (EquationSolver.solve solver.config context g).Ensures solver.simplifier.reset s
      (fun found _ _ => g.isDecidedSat = true → found.1.isDecidedSat = true)
      fun _ _ _ => True := by
    by_cases satisfied : g.isDecidedSat = true
    · obtain ⟨none, consistent⟩ := Goal.isDecidedSat_iff.mp satisfied
      unfold EquationSolver.solve
      apply ensures_read_bind
      dsimp only
      have idle (rounds : ℕ) : EquationSolver.eliminateAll solver.config context (rounds + 1) g =
          pure (g, []) := by
        rw [EquationSolver.eliminateAll, consistent, if_neg Bool.false_ne_true, Goal.formulas, none,
          List.map_nil, EquationSolver.candidate?]
        rfl
      rw [idle, pure_bind]
      apply ensures_bind (build_elimRedundancies satisfied)
      exact fun g' _ _ _ now => ensures_pure fun _ => now
    · exact ensures_trivial.imp (fun _ _ _ _ _ now => absurd now satisfied) fun _ _ _ _ _ => trivial
  unfold EquationSolver.run
  apply Terms.ensures_bind solved
  rintro ⟨outcome, left⟩ _ _ kept
  cases outcome with
  | error e => exact Terms.ensures_pure nofun
  | ok found =>
    obtain ⟨g', defs⟩ := found
    refine Terms.ensures_pure fun r same => ?_
    obtain rfl := Except.ok.inj same
    have kept : g.isDecidedSat = true → g'.deeper.isDecidedSat = true := kept
    apply settles_single kept
    split
    · exact ModelConverter.uniform_extension defs
    · exact ModelConverter.uniform_identity

/-- There is no clause in a satisfied goal. -/
theorem splitClause_settles (largest : Bool) : (CaseSplit.run largest context g).Ensures () s
    (fun result _ _ => Settles g result) fun _ _ _ => True := by
  unfold CaseSplit.run
  apply ensures_read_bind
  split
  · exact ensures_throw trivial
  · next slot members found =>
    have unsatisfied : ¬ g.isDecidedSat = true := by
      intro satisfied
      simp [CaseSplit.select?, Goal.formulas, (Goal.isDecidedSat_iff.mp satisfied).1,
        CaseSplit.clauses] at found
    apply ensures_bind ensures_trivial
    intro base _ _ _ _
    apply ensures_bind ensures_trivial
    intro goals _ _ _ _
    exact ensures_pure ⟨fun satisfied => absurd satisfied unsatisfied,
      fun _ _ => .inr ModelConverter.uniform_identity⟩

/-- The converter of an encoding does not look at the position. -/
theorem converter_uniform (work : BlastWork) : (Blaster.converter work).Uniform := by
  apply ModelConverter.Uniform.andThen
  · split
    · exact ModelConverter.uniform_identity
    · exact ModelConverter.uniform_bits _
  · split
    · exact ModelConverter.uniform_identity
    · exact ModelConverter.uniform_filter _

/-- An encoded goal is satisfied if the goal is. -/
theorem bitBlast_settles {blaster : Blaster} : (Blaster.run context g).Ensures blaster s
    (fun result _ _ => Settles g result) fun _ _ _ => True := by
  unfold Blaster.run
  apply ensures_get_bind
  split
  · exact ensures_throw_bind trivial
  have visited : (Goal.visitFrom (Blaster.visit context) g.size 0 g).Ensures blaster.cleanup s
      (fun g' b _ => g.isDecidedSat = true → g'.isDecidedSat = true ∧ b.work = {})
      fun _ _ _ => True := by
    by_cases satisfied : g.isDecidedSat = true
    · rw [Goal.visitFrom_of_satisfied satisfied]
      exact ensures_pure fun _ => ⟨satisfied, rfl⟩
    · exact ensures_trivial.imp (fun _ _ _ _ _ now => absurd now satisfied) fun _ _ _ _ _ => trivial
  dsimp only
  apply ensures_modify_bind
  apply ensures_bind visited
  intro g₁ b s₁ _ known
  have reduced : g₁.elimRedundancies.Ensures s₁
      fun g₂ _ => g.isDecidedSat = true → g₂.isDecidedSat = true := by
    intro satisfied
    have same := Goal.elimRedundancies_of_satisfied (s := s₁) (known satisfied).1
    unfold Terms.Ensures at same
    rw [same]
    exact (known satisfied).1
  apply ensures_build_bind reduced
  intro g₂ s₂ _ kept
  apply ensures_get_bind
  have finish : ∀ (g₃ : Goal) (s₃ : Store), (g.isDecidedSat = true → g₃.isDecidedSat = true) →
      ((do
        modify fun b' => Blaster.cleanup { b' with
          stats := { b'.stats with steps := b.work.steps } }
        return { goals := [g₃.deeper]
                 models := if g₃.models then Blaster.converter b.work else .identity }
          : Attempt Blaster TacticResult)).Ensures b s₃ (fun result _ _ => Settles g result)
        fun _ _ _ => True := by
    intro g₃ s₃ kept
    apply ensures_modify_bind
    have kept : g.isDecidedSat = true → g₃.deeper.isDecidedSat = true := kept
    apply ensures_pure
    apply settles_single kept
    split
    · exact converter_uniform b.work
    · exact ModelConverter.uniform_identity
  split
  · exact finish g₂ s₂ kept
  · have linked : (Blaster.assertLinks g₂ (Blaster.linked b.work)).Ensures s₂
        fun g₃ _ => g.isDecidedSat = true → g₃.isDecidedSat = true := by
      intro satisfied
      rw [(known satisfied).2]
      exact kept satisfied
    apply ensures_build_bind linked
    exact fun g₃ s₃ _ kept => finish g₃ s₃ kept

/-- The basic tactics make one satisfied subgoal of a satisfied goal. -/
theorem settling_basics : settling.Basics True where
  simplify _ _ _ := simplify_settles.imp (fun _ _ _ _ settles => ⟨settles, trivial⟩)
    fun _ _ _ _ _ => trivial
  solveEqs solver _ := solveEqs_settles solver
  splitClause largest _ _ _ := (splitClause_settles largest).imp
    (fun _ _ _ _ settles => ⟨settles, trivial⟩) fun _ _ _ _ _ => trivial
  bitBlast _ _ _ _ _ _ _ := bitBlast_settles.imp (fun _ _ _ _ settles => ⟨settles, trivial⟩)
    fun _ _ _ _ _ => trivial

/-- Every run of a tactic makes one satisfied subgoal of a satisfied goal, and the converter of a
single subgoal looks at the position only if that is satisfied. -/
theorem applyTo_settles {t t' : Tactic} {depth : ℕ} {r : TacticResult} {after : Store}
    (built : Built True t) (run : (applyTo context depth t g).run s = ((.ok r, t'), after)) :
    Settles g r := by
  have met : (applyTo context depth t g).Ensures s (settling.Meets True g) :=
    (Promise.apply_meets settling_basics depth).1 built trivial
  unfold Terms.Ensures at met
  rw [run] at met
  exact met.2 r rfl

end Tactic

namespace TacticResult

/-- Results that cannot be told apart: they have the same subgoals, and their converters do the same
with every model of a subgoal. A subgoal with `false` among its formulas has no model. -/
structure Same (r r' : TacticResult) : Prop where
  /-- The subgoals are the same. -/
  goals : r.goals = r'.goals
  /-- The converters do the same. -/
  models : ∀ i g, r.goals[i]? = some g → Store.falseId ∉ g.formulas →
    ∀ m, r.models.convert i m = r'.models.convert i m

/-- Outcomes that cannot be told apart: the same failure, or results of this kind. -/
def SameOutcome : Except Error TacticResult → Except Error TacticResult → Prop
  | .ok r, .ok r' => r.Same r'
  | .error e, .error e' => e = e'
  | _, _ => False

variable {first rb : TacticResult} {results : List TacticResult}

/-- The converter branches of results have as many subgoals as the results. -/
theorem total_branches (results : List TacticResult) (position : ℕ) :
    ModelConverter.total (branches position results) = (results.flatMap (·.goals)).length := by
  induction results generalizing position with
  | nil => rfl
  | cons r rest later =>
    rw [List.flatMap_cons, List.length_append, ← later (position + 1)]
    simp [branches, ModelConverter.total]

/-- Results with converters that are spread over branches are the same, whether a converter that
does not look at the position comes before or after. -/
theorem same_of_branches (uniform : first.models.Uniform) {goals : List Goal}
    {branches : List (Branch ModelConverter)} (count : ModelConverter.total branches = goals.length)
    {proofs proofs' : ProofConverter} {core core' : Option DependencySet} :
    Same ⟨goals, .ofBranches (first.after rb).models branches, proofs, core⟩
      (first.after ⟨goals, .ofBranches rb.models branches, proofs', core'⟩) := by
  refine ⟨rfl, fun i g found _ m => ?_⟩
  have inside : i < ModelConverter.total branches := by
    rw [count]
    exact (List.getElem?_eq_some_iff.mp found).1
  show (ModelConverter.apply _ i).runFrom m = (ModelConverter.apply _ i).runFrom m
  rw [after, after, ModelConverter.ofBranches_andThen uniform rb.models inside]

/-- A collapsed goal has `false` among its formulas. -/
theorem collapsed_falseId {converter : ProofConverter} {template : Goal} {goals : List Goal} :
    (collapsed converter template goals).Ensures s
      fun outcome _ => ∀ g, outcome = .ok g → Store.falseId ∈ g.formulas := by
  unfold collapsed
  apply Terms.ensures_bind_of_all
  intro outcome middle _
  cases outcome with
  | error e => exact Terms.ensures_pure nofun
  | ok proof =>
    apply Terms.ensures_bind (Goal.assertEntry_falseId proof _ rfl)
    intro g _ _ known
    refine Terms.ensures_pure fun g' same => ?_
    obtain rfl := Except.ok.inj same
    exact known

/-- A refuted goal has no model, so its converters do not matter. -/
theorem sameOutcome_of_refuted {work : Terms (Except Error Goal)} {core core' : Option DependencySet}
    (refuted : work.Ensures s fun outcome _ => ∀ g, outcome = .ok g → Store.falseId ∈ g.formulas) :
    SameOutcome ((work.run s).1.map fun g => { single g with core })
      (((work.run s).1.map fun g => { single g with core := core' }).map first.after) := by
  unfold Terms.Ensures at refuted
  cases outcome : (work.run s).1 with
  | error e => rfl
  | ok g =>
    refine ⟨rfl, fun i g' found clean => ?_⟩
    have same : g' = g := List.mem_singleton.mp (List.mem_of_getElem? found)
    exact absurd (refuted g outcome) (same ▸ clean)

/-- Results on several subgoals may be put together before or after the result that comes first. -/
theorem afterAll_after (proofs : first.proofs = .identity) (uniform : first.models.Uniform)
    (rb : TacticResult) (results : List TacticResult) (s : Store) :
    (((first.after rb).afterAll results).run s).2 = ((rb.afterAll results).run s).2 ∧
    SameOutcome (((first.after rb).afterAll results).run s).1
      (((rb.afterAll results).run s).1.map first.after) := by
  have converters : (first.after rb).proofs = rb.proofs := by
    rw [after, proofs]
    rfl
  have count := total_branches results 0
  unfold afterAll
  rw [converters]
  dsimp only
  split
  · next template rest shape =>
    split
    · refine ⟨rfl, ?_⟩
      exact sameOutcome_of_refuted collapsed_falseId
    · exact ⟨rfl, same_of_branches uniform count⟩
  · exact ⟨rfl, same_of_branches uniform count⟩

variable {σ : Type} {next : Goal → Attempt σ TacticResult} {state : σ}

/-- Attempts whose results are the same after a first result: they leave the same state and the same
terms. -/
def Matches (first : TacticResult) (left right : Attempt σ TacticResult) : Prop :=
  ∀ state s, ((left.runFrom state).run s).2 = ((right.runFrom state).run s).2 ∧
    ((left.runFrom state).run s).1.2 = ((right.runFrom state).run s).1.2 ∧
    SameOutcome ((left.runFrom state).run s).1.1
      (((right.runFrom state).run s).1.1.map first.after)

/-- Results that are the same after a first result. -/
theorem matches_pure {r r' : TacticResult} (same : r.Same (first.after r')) :
    Matches first (pure r : Attempt σ TacticResult) (pure r') := fun _ _ => ⟨rfl, rfl, same⟩

/-- An attempt, and then others whose results are the same after a first result. -/
theorem matches_bind {α : Type} {work : Attempt σ α} {left right : α → Attempt σ TacticResult}
    (each : ∀ a, Matches first (left a) (right a)) :
    Matches first (work >>= left) (work >>= right) := by
  intro state s
  simp only [Attempt.run_bind]
  split
  · next a state' after _ => exact each a state' after
  · exact ⟨rfl, rfl, rfl⟩

/-- The outcome of putting results together is that of the attempt to do it. -/
theorem run_build_afterAll (first : TacticResult) (results : List TacticResult) (state : σ)
    (s : Store) :
    ((Attempt.build (first.afterAll results) >>= Attempt.ofExcept : Attempt σ TacticResult).runFrom
      state).run s =
      ((((first.afterAll results).run s).1, state), ((first.afterAll results).run s).2) := by
  rw [Attempt.run_bind]
  show (((Attempt.ofExcept ((first.afterAll results).run s).1 : Attempt σ TacticResult).runFrom
    state).run ((first.afterAll results).run s).2) = _
  cases ((first.afterAll results).run s).1 <;> rfl

/-- Running a tactic on the subgoals of a result, and then putting a first result with one subgoal
before it, is the same as putting the first result before and then running the tactic. -/
theorem sequence_after (proofs : first.proofs = .identity)
    (uniform : first.models.Uniform ∨ rb.goals.length ≤ 1) :
    Matches first ((first.after rb).sequence context next) (rb.sequence context next) := by
  have goals : (first.after rb).goals = rb.goals := rfl
  unfold TacticResult.sequence
  rw [goals]
  split
  · exact matches_pure ⟨rfl, fun _ _ _ _ _ => rfl⟩
  · apply matches_bind
    intro r
    refine matches_pure ⟨rfl, fun i g _ _ m => ?_⟩
    show ((first.models.andThen rb.models).andThen r.models).convert i m =
      (first.models.andThen (rb.models.andThen r.models)).convert i m
    rw [ModelConverter.andThen_assoc]
  · next none one =>
    have uniform : first.models.Uniform := by
      rcases uniform with known | few
      · exact known
      · rcases shape : rb.goals with _ | ⟨g, _ | ⟨_, _⟩⟩
        · exact absurd shape none
        · exact absurd shape (one g)
        · rw [shape] at few
          exact absurd few (by simp)
    apply matches_bind
    rintro ⟨results, satisfied⟩
    cases satisfied with
    | some found =>
      obtain ⟨position, converter, goal⟩ := found
      exact matches_pure (same_of_branches uniform rfl)
    | none =>
      intro state s
      obtain ⟨stores, outcomes⟩ := afterAll_after proofs uniform rb results s
      rw [run_build_afterAll, run_build_afterAll]
      exact ⟨stores, rfl, outcomes⟩

end TacticResult

namespace Tactic

open TacticResult

/-- Running a tactic, down to a depth, as an attempt that works on the tactic. -/
def inner (context : Context) (depth : ℕ) (g : Goal) : Attempt Tactic TacticResult :=
  Attempt.ofRun fun t => applyTo context depth t g

variable {a b c first second first' second' : Tactic} {depth : ℕ} {r r' : TacticResult} {e : Error}
  {h : Goal} {outcome : Except Error TacticResult} {middle after : Store}

/-- The first tactic fails. -/
theorem run_andThen_error (failed : (applyTo context depth first g).run s =
      ((.error e, first'), after)) :
    (applyTo context (depth + 1) (andThen first second) g).run s =
      ((.error e, andThen first' second), after) := by
  rw [applyTo, Terms.run_bind, failed]
  rfl

/-- The second tactic runs on the subgoals of the first. -/
theorem run_andThen_ok (ran : (applyTo context depth first g).run s = ((.ok r, first'), middle))
    (later : ((r.sequence context (inner context depth)).runFrom second).run middle =
      ((outcome, second'), after)) :
    (applyTo context (depth + 1) (andThen first second) g).run s =
      ((outcome, andThen first' second'), after) := by
  rw [applyTo, Terms.run_bind, ran]
  show (((r.sequence context (inner context depth)).runFrom second >>= fun found =>
    pure (found.1, andThen first' found.2) : Run).run middle) = _
  rw [Terms.run_bind, later]
  rfl

/-- There is no subgoal to run a tactic on. -/
theorem run_sequence_nil (none : r.goals = []) (depth : ℕ) (t : Tactic) (s : Store) :
    ((r.sequence context (inner context depth)).runFrom t).run s = ((.ok r, t), s) := by
  unfold TacticResult.sequence
  rw [none]
  rfl

/-- The tactic fails on the only subgoal. -/
theorem run_sequence_error (only : r.goals = [h])
    (failed : (applyTo context depth second h).run s = ((.error e, second'), after)) :
    ((r.sequence context (inner context depth)).runFrom second).run s =
      ((.error e, second'), after) := by
  have failed : ((inner context depth h).runFrom second).run s = ((.error e, second'), after) := failed
  unfold TacticResult.sequence
  rw [only]
  dsimp only
  rw [Attempt.run_bind, failed]

/-- The tactic runs on the only subgoal. -/
theorem run_sequence_ok (only : r.goals = [h])
    (ran : (applyTo context depth second h).run s = ((.ok r', second'), after)) :
    ((r.sequence context (inner context depth)).runFrom second).run s =
      ((.ok (r.after r'), second'), after) := by
  have ran : ((inner context depth h).runFrom second).run s = ((.ok r', second'), after) := ran
  unfold TacticResult.sequence
  rw [only]
  dsimp only
  rw [Attempt.run_bind, ran]
  rfl

/-- The converter of a tactic that leaves one subgoal does not look at the position, unless another
tactic makes at most one subgoal of it. -/
theorem uniform_or_few (builtA : Built True a) (builtB : Built True b)
    (ranA : (applyTo context depth a g).run s = ((.ok r, first'), middle)) (only : r.goals = [h])
    (ranB : (applyTo context depth b h).run middle = ((.ok r', second'), after)) :
    r.models.Uniform ∨ r'.goals.length ≤ 1 := by
  rcases (applyTo_settles builtA ranA).uniform h only with satisfied | uniform
  · obtain ⟨g', one, _⟩ := (applyTo_settles builtB ranB).satisfied satisfied
    rw [one]
    exact .inr (Nat.le_refl 1)
  · exact .inl uniform

/-- Running a tactic after two results in either grouping, in one of them a level deeper. -/
theorem sequence_after_deeper {t' : Tactic} (proofs : r.proofs = .identity)
    (uniform : r.models.Uniform ∨ r'.goals.length ≤ 1)
    (ran : ((r'.sequence context (inner context depth)).runFrom c).run s = ((outcome, t'), after))
    (reached : outcome ≠ .error tooDeep) :
    ((((r.after r').sequence context (inner context (depth + 1))).runFrom c).run s).2 = after ∧
    SameOutcome ((((r.after r').sequence context (inner context (depth + 1))).runFrom c).run s).1.1
      (outcome.map r.after) := by
  have agrees : AgreesFrom (r'.sequence context (inner context depth))
      (r'.sequence context (inner context (depth + 1))) :=
    sequence_agrees (fun g t => (agrees_succ depth).1 context t g) r'
  have deeper := agrees c s
  rw [ran] at deeper
  have deeper := deeper.resolve_left reached
  have whole : Matches r ((r.after r').sequence context (inner context (depth + 1)))
      (r'.sequence context (inner context (depth + 1))) := sequence_after proofs uniform
  obtain ⟨stores, _, same⟩ := whole c s
  rw [deeper] at stores same
  exact ⟨stores, same⟩

/-- If a first tactic leaves at most one subgoal, two others may be grouped with it in either way,
down to every depth that the runs do not reach. -/
theorem applyTo_assoc (builtA : Built True a) (builtB : Built True b)
    (few : ∀ r a' after, (applyTo context (depth + 2) a g).run s = ((.ok r, a'), after) →
      r.goals.length ≤ 1 ∧ r.proofs = .identity)
    (shallow : ((applyTo context (depth + 2) (andThen (andThen a b) c) g).run s).1.1 ≠
      .error tooDeep)
    (shallow' : ((applyTo context (depth + 2) (andThen a (andThen b c)) g).run s).1.1 ≠
      .error tooDeep) :
    ((applyTo context (depth + 2) (andThen (andThen a b) c) g).run s).2 =
      ((applyTo context (depth + 2) (andThen a (andThen b c)) g).run s).2 ∧
    SameOutcome ((applyTo context (depth + 2) (andThen (andThen a b) c) g).run s).1.1
      ((applyTo context (depth + 2) (andThen a (andThen b c)) g).run s).1.1 := by
  have next := applyTo_agrees (Nat.le_add_right depth 1) context a g s
  have last := applyTo_agrees (Nat.le_add_right depth 2) context a g s
  rcases ranA : (applyTo context depth a g).run s with ⟨⟨outcome, a'⟩, s₁⟩
  rw [ranA] at next last
  cases outcome with
  | error e =>
    -- The bound is not reached, so the first tactic fails in the same way one level deeper.
    have reached : Except.error e ≠ (.error tooDeep : Except Error TacticResult) := by
      rintro same
      apply shallow
      rw [run_andThen_error (run_andThen_error ranA)]
      exact same
    have next := next.resolve_left reached
    rw [run_andThen_error (run_andThen_error ranA), run_andThen_error next]
    exact ⟨rfl, rfl⟩
  | ok r =>
    have next := next.resolve_left nofun
    have last := last.resolve_left nofun
    obtain ⟨few, proofs⟩ := few r a' s₁ last
    rcases shape : r.goals with _ | ⟨h, _ | ⟨_, _⟩⟩
    · rw [run_andThen_ok (run_andThen_ok ranA (run_sequence_nil shape depth b s₁))
          (run_sequence_nil shape _ c s₁), run_andThen_ok next (run_sequence_nil shape _ _ s₁)]
      exact ⟨rfl, rfl, fun _ _ _ _ _ => rfl⟩
    · rcases ranB : (applyTo context depth b h).run s₁ with ⟨⟨outcome, b'⟩, s₂⟩
      cases outcome with
      | error e =>
        rw [run_andThen_error (run_andThen_ok ranA (run_sequence_error shape ranB)),
          run_andThen_ok next (run_sequence_error shape (run_andThen_error ranB))]
        exact ⟨rfl, rfl⟩
      | ok rb =>
        rcases ranC : ((rb.sequence context (inner context depth)).runFrom c).run s₂ with
          ⟨⟨outcome, c'⟩, s₃⟩
        have right : ∃ t, (applyTo context (depth + 2) (andThen a (andThen b c)) g).run s =
            ((outcome.map r.after, t), s₃) := by
          cases outcome with
          | error e =>
            exact ⟨_, run_andThen_ok next (run_sequence_error shape (run_andThen_ok ranB ranC))⟩
          | ok rc =>
            exact ⟨_, run_andThen_ok next (run_sequence_ok shape (run_andThen_ok ranB ranC))⟩
        obtain ⟨_, right⟩ := right
        rw [right] at shallow' ⊢
        have reached : outcome ≠ .error tooDeep := by
          rintro rfl
          exact shallow' rfl
        rcases left : ((((r.after rb).sequence context (inner context (depth + 1))).runFrom c).run
          s₂) with ⟨⟨outcome', c''⟩, s₃'⟩
        rw [run_andThen_ok (run_andThen_ok ranA (run_sequence_ok shape ranB)) left]
        have uniform := uniform_or_few builtA builtB ranA shape ranB
        have same := sequence_after_deeper proofs uniform ranC reached
        rw [left] at same
        exact same
    · rw [shape] at few
      simp at few

section Groupings

variable {σ : Type} {next : Goal → Attempt σ TacticResult} {state state' state'' : σ}
  {rest : List Goal} {position : ℕ}

/-- A tactic fails on a subgoal. -/
theorem run_results_error (failed : ((next g).runFrom state).run s = ((.error e, state'), after)) :
    ((results .unbounded next position (g :: rest)).runFrom state).run s =
      ((.error e, state'), after) := by
  rw [results, Attempt.run_bind]
  show ((next g >>= _ : Attempt σ _).runFrom state).run s = _
  rw [Attempt.run_bind, failed]

/-- A tactic satisfies a subgoal. -/
theorem run_results_satisfied (ran : ((next g).runFrom state).run s = ((.ok r, state'), after))
    (satisfied : r.satisfied? g = some h) :
    ((results .unbounded next position (g :: rest)).runFrom state).run s =
      ((.ok ([r], some (position, r.models, h)), state'), after) := by
  rw [results, Attempt.run_bind]
  show ((next g >>= _ : Attempt σ _).runFrom state).run s = _
  rw [Attempt.run_bind, ran]
  dsimp only
  rw [satisfied]
  rfl

/-- A tactic does not satisfy a subgoal, and runs on the others. -/
theorem run_results_undecided {others : List TacticResult}
    {satisfied : Option (ℕ × ModelConverter × Goal)}
    (ran : ((next g).runFrom state).run s = ((.ok r, state'), middle))
    (undecided : r.satisfied? g = none)
    (later : ((results .unbounded next (position + 1) rest).runFrom state').run middle =
      ((.ok (others, satisfied), state''), after)) :
    ((results .unbounded next position (g :: rest)).runFrom state).run s =
      ((.ok (r :: others, satisfied), state''), after) := by
  rw [results, Attempt.run_bind]
  show ((next g >>= _ : Attempt σ _).runFrom state).run s = _
  rw [Attempt.run_bind, ran]
  dsimp only
  rw [undecided]
  dsimp only
  rw [Attempt.run_bind, later]
  rfl

variable {first last : Goal}

/-- A goal that is left alone. -/
theorem run_skip (context : Context) (depth : ℕ) (g : Goal) (s : Store) :
    (applyTo context (depth + 1) skip g).run s = ((.ok (.single g), skip), s) := by
  rw [applyTo]
  rfl

/-- A decided goal is left alone. -/
theorem run_failIfUndecided_ok (context : Context) (depth : ℕ) (decided : g.isDecided = true)
    (s : Store) : (applyTo context (depth + 1) failIfUndecided g).run s =
      ((.ok (.single g), failIfUndecided), s) := by
  rw [applyTo, if_pos decided]
  rfl

/-- An undecided goal is a failure. -/
theorem run_failIfUndecided_error (context : Context) (depth : ℕ) (undecided : g.isDecided = false)
    (s : Store) : (applyTo context (depth + 1) failIfUndecided g).run s =
      ((.error (.tacticFailed "undecided"), failIfUndecided), s) := by
  rw [applyTo, if_neg (by simp [undecided])]
  rfl

/-- A goal that is left alone is satisfied if it was. -/
theorem satisfied?_single (g : Goal) :
    (single g).satisfied? g = if g.isDecidedSat = true then some g else none := rfl

/-- Leaving two subgoals alone, of which the second one is satisfied, gives the result on that one. -/
theorem run_sequence_second (goals : r.goals = [first, last]) (undecided : first.isDecided = false)
    (satisfied : last.isDecidedSat = true) (depth : ℕ) (s : Store) :
    ((r.sequence .unbounded (inner .unbounded (depth + 1))).runFrom skip).run s =
      ((.ok (r.satisfiedAt [single first, single last] 1 .identity last), skip), s) := by
  have pending : first.isDecidedSat = false := by
    rw [Goal.isDecided, Bool.or_eq_false_iff] at undecided
    exact undecided.1
  have found : ((results .unbounded (inner .unbounded (depth + 1)) 0 [first, last]).runFrom
      skip).run s = ((.ok ([single first, single last], some (1, .identity, last)), skip), s) :=
    run_results_undecided (run_skip .unbounded depth first s)
      (by rw [satisfied?_single, pending, if_neg Bool.false_ne_true])
      (run_results_satisfied (run_skip .unbounded depth last s)
        (by rw [satisfied?_single, if_pos satisfied]))
  unfold TacticResult.sequence
  rw [goals]
  dsimp only
  rw [Attempt.run_bind, found]
  rfl

/-- Leaving two subgoals alone, of which the second one is satisfied, drops the first one. -/
theorem run_sequence_skip (goals : r.goals = [first, last]) (undecided : first.isDecided = false)
    (satisfied : last.isDecidedSat = true) (depth : ℕ) (s : Store) :
    ∃ r', r'.goals = [last] ∧ ((r.sequence .unbounded (inner .unbounded (depth + 1))).runFrom
      skip).run s = ((.ok r', skip), s) :=
  ⟨_, rfl, run_sequence_second goals undecided satisfied depth s⟩

/-- Grouped to the left, a tactic that accepts only decided goals sees the satisfied one of two
subgoals. -/
theorem run_left (ran : (applyTo .unbounded (depth + 1) a g).run s = ((.ok r, first'), after))
    (goals : r.goals = [first, last]) (undecided : first.isDecided = false)
    (satisfied : last.isDecidedSat = true) :
    ∃ r' t, (applyTo .unbounded (depth + 3) (andThen (andThen a skip) failIfUndecided) g).run s =
      ((.ok r', t), after) := by
  obtain ⟨r', only, skipped⟩ := run_sequence_skip goals undecided satisfied depth after
  have decided : last.isDecided = true := by rw [Goal.isDecided, satisfied, Bool.true_or]
  exact ⟨_, _, run_andThen_ok (run_andThen_ok ran skipped)
    (run_sequence_ok only (run_failIfUndecided_ok _ (depth + 1) decided after))⟩

/-- Grouped to the right, it sees the undecided one first. -/
theorem run_right (ran : (applyTo .unbounded (depth + 1) a g).run s = ((.ok r, first'), after))
    (goals : r.goals = [first, last]) (undecided : first.isDecided = false) :
    ∃ t, (applyTo .unbounded (depth + 3) (andThen a (andThen skip failIfUndecided)) g).run s =
      ((.error (.tacticFailed "undecided"), t), after) := by
  have deeper := applyTo_agrees (Nat.le_add_right (depth + 1) 1) .unbounded a g s
  rw [ran] at deeper
  have failed : (applyTo .unbounded (depth + 2) (andThen skip failIfUndecided) first).run after =
      ((.error (.tacticFailed "undecided"), andThen skip failIfUndecided), after) :=
    run_andThen_ok (run_skip _ depth first after)
      (run_sequence_error rfl (run_failIfUndecided_error _ depth undecided after))
  have stopped : ((r.sequence .unbounded (inner .unbounded (depth + 2))).runFrom
      (andThen skip failIfUndecided)).run after =
      ((.error (.tacticFailed "undecided"), andThen skip failIfUndecided), after) := by
    unfold TacticResult.sequence
    rw [goals]
    dsimp only
    have failed : ((inner .unbounded (depth + 2) first).runFrom (andThen skip failIfUndecided)).run
        after = ((.error (.tacticFailed "undecided"), andThen skip failIfUndecided), after) := failed
    rw [Attempt.run_bind, run_results_error failed]
  exact ⟨_, run_andThen_ok (deeper.resolve_left nofun) stopped⟩

/-- A goal without formulas that asks for a model. -/
def emptyGoal : Goal := { models := true, proofs := false, cores := false }

/-- A goal with a clause of a constant and `true`. -/
def clauseGoal : Terms Goal := do
  let p ← Terms.mkVar "p" .bool
  let clause ← Terms.mkOr [p, Store.trueId]
  emptyGoal.assert clause

/-- The formula of the goal is the clause. -/
theorem clauseGoal_ensures : clauseGoal.Ensures .initial fun g s => ∃ p clause,
    s.view p = (.var "p", []) ∧ s.view clause = (.or, [p, Store.trueId]) ∧
    g = { emptyGoal with entries := [⟨clause, none, none⟩] } := by
  have constant : (Terms.mkVar "p" .bool).Ensures .initial fun p s =>
      p < s.size ∧ s.node p = ⟨.var "p", [], .bool⟩ :=
    Terms.ensures_bind_of_all fun _ _ _ => Terms.intern_node nofun
  apply Terms.ensures_bind constant
  rintro p s _ ⟨inside, node⟩
  have arguments : ∀ a ∈ [p, Store.trueId], a < s.size := by simpa using ⟨inside, s.node_trueId.1⟩
  have two : Terms.mkOr [p, Store.trueId] = Terms.mkApp .or [p, Store.trueId] := rfl
  rw [two]
  apply Terms.ensures_bind (Terms.mkApp_node arguments)
  rintro clause after grown ⟨_, whole⟩
  have view : after.view clause = (.or, [p, Store.trueId]) := by rw [Store.view, whole]
  have constant : after.view p = (.var "p", []) := by rw [Store.view, grown.node_eq inside, node]
  have distinct : clause ≠ Store.falseId := by
    rintro rfl
    rw [Store.view, after.node_falseId.2] at view
    cases view
  have whole : (Goal.split? (clause, none)).run after = (none, after) := by simp [Goal.split?, view]
  have asserted : (emptyGoal.assertEntry ⟨clause, none, none⟩).run after =
      ({ emptyGoal with entries := [⟨clause, none, none⟩] }, after) :=
    Goal.run_assertEntry_single rfl whole distinct
  show (emptyGoal.assertEntry ⟨clause, none, none⟩).Ensures after _
  unfold Terms.Ensures
  rw [asserted]
  exact ⟨p, clause, constant, view, rfl⟩

/-- The case of a member in a goal that keeps no proofs. -/
theorem case_of_not_proofs {base : Goal} (without : base.proofs = false) (member : TermId) :
    CaseSplit.case base none member = base.assertEntry ⟨member, none, none⟩ := by
  rw [CaseSplit.case, without, if_neg Bool.false_ne_true, pure_bind]

/-- The cases of two members. -/
theorem run_cases_pair {base first last : Goal} {p q : TermId} (without : base.proofs = false)
    (left : (base.assertEntry ⟨p, none, none⟩).run s = (first, s))
    (right : (base.assertEntry ⟨q, none, none⟩).run s = (last, s)) :
    ((CaseSplit.cases .unbounded base none [p, q]).runFrom ()).run s =
      ((.ok [first, last], ()), s) := by
  simp only [CaseSplit.cases, Attempt.run_bind, Attempt.run_check_unbounded, Attempt.run_build,
    Attempt.run_pure, case_of_not_proofs without, left, right]

/-- A case split on the only formula, a clause with two members. -/
theorem run_split_pair {p q clause : TermId} {first last : Goal}
    (members : s.view clause = (.or, [p, q]))
    (left : (emptyGoal.deeper.assertEntry ⟨p, none, none⟩).run s = (first, s))
    (right : (emptyGoal.deeper.assertEntry ⟨q, none, none⟩).run s = (last, s)) :
    ((CaseSplit.run false .unbounded
      { emptyGoal with entries := [⟨clause, none, none⟩] }).runFrom ()).run s =
      ((.ok { goals := [first, last] }, ()), s) := by
  have selected : CaseSplit.select? false s { emptyGoal with entries := [⟨clause, none, none⟩] } =
      some (0, [p, q]) := by
    simp [CaseSplit.select?, CaseSplit.clauses, Goal.formulas, members]
  have cases := run_cases_pair rfl left right
  unfold CaseSplit.run
  rw [Attempt.run_bind, Attempt.run_read]
  dsimp only
  rw [selected]
  dsimp only
  rw [Attempt.run_bind, Attempt.run_build]
  have base : (CaseSplit.assertAll (Goal.cleared
      { emptyGoal with entries := [⟨clause, none, none⟩] }) []).run s = (emptyGoal, s) := rfl
  simp only [List.eraseIdx_zero, List.tail_cons, base, List.getElem?_cons_zero, Option.getD_some]
  rw [Attempt.run_bind, cases]
  rfl

/-- Splitting the clause leaves an undecided and a satisfied subgoal. -/
theorem run_splitClause (depth : ℕ) : ∃ r first last,
    r.goals = [first, last] ∧ first.isDecided = false ∧ last.isDecidedSat = true ∧
    (applyTo .unbounded (depth + 1) (splitClause false) (clauseGoal.run .initial).1).run
      (clauseGoal.run .initial).2 = ((.ok r, splitClause false), (clauseGoal.run .initial).2) := by
  obtain ⟨p, clause, constant, members, shape⟩ := clauseGoal_ensures
  rw [shape]
  generalize (clauseGoal.run .initial).2 = s at constant members ⊢
  have distinct : p ≠ Store.falseId := by
    rintro rfl
    rw [Store.view, s.node_falseId.2] at constant
    cases constant
  have whole : (Goal.split? (p, none)).run s = (none, s) := by simp [Goal.split?, constant]
  have left : (emptyGoal.deeper.assertEntry ⟨p, none, none⟩).run s =
      ({ emptyGoal.deeper with entries := [⟨p, none, none⟩] }, s) :=
    Goal.run_assertEntry_single rfl whole distinct
  have right : (emptyGoal.deeper.assertEntry ⟨Store.trueId, none, none⟩).run s =
      (emptyGoal.deeper, s) := Goal.run_assertEntry_trueId rfl
  have split := run_split_pair members left right
  have run : (applyTo .unbounded (depth + 1) (splitClause false)
      { emptyGoal with entries := [⟨clause, none, none⟩] }).run s = ((.ok { goals :=
        [{ emptyGoal.deeper with entries := [⟨p, none, none⟩] }, emptyGoal.deeper] },
        splitClause false), s) := by
    rw [applyTo, Terms.run_bind, split]
    rfl
  exact ⟨_, _, _, rfl, rfl, rfl, run⟩

end Groupings

end Tactic
end Stratagem
