import Stratagem.Proofs.Solver
import Stratagem.Proofs.Tactic.Recovery
import Stratagem.Proofs.Tactic.Sequence

/-!
# Models and refutations that solvers answer with

A solver answers that its assertions are satisfiable with a model of them, and that they are
unsatisfiable only if no assignment satisfies them. Both rest on what runs of tactics keep: models of
subgoals are converted to models of the goal, and an assignment that satisfies the goal satisfies
some subgoal. The formulas are well-sorted in the strict sense: no operator mixes integers and reals.
-/
namespace Stratagem

namespace Model

/-- A model that gives nothing gives terms without constants. -/
theorem ground_empty (s : Store) : ({} : Model).Ground s where
  distinct := List.nodup_nil
  definitions c u found := by
    rw [get?_empty] at found
    cases found

end Model

namespace Solver

open TacticResult (Recovers)

variable {Γ : Signature} {s after : Store} {g : Goal} {v : Solver} {config : SolverConfig}
  {r : TacticResult}

/-- The answer that assertions are satisfiable comes with a model of the goal, if models are asked
for; the answer that they are unsatisfiable is given on a single refuted subgoal. -/
theorem verdict_recovers (known : r.Recovers Γ g s) (models : config.models = true)
    (asked : g.models = true) : (verdict config r).Ensures s fun found after =>
      (found.1 = .sat → ∃ m, found.2.model = some m ∧ m.Ground after ∧
        g.Satisfied ((m.assignment after).reading Γ) after) ∧
      (found.1 = .unsat → ∃ g', r.goals = [g'] ∧ g'.inconsistent = true) := by
  have satisfied {g' : Goal} (only : r.goals = [g']) (decided : g'.isDecidedSat = true) :
      (satisfied config r).Ensures s fun found after =>
        (found.1 = .sat → ∃ m, found.2.model = some m ∧ m.Ground after ∧
          g.Satisfied ((m.assignment after).reading Γ) after) ∧
        (found.1 = .unsat → ∃ g', r.goals = [g'] ∧ g'.inconsistent = true) := by
    have nothing : g'.Satisfied ((Model.assignment {} s).reading Γ) s := by
      intro e member
      rw [(Goal.isDecidedSat_iff.mp decided).1] at member
      cases member
    have converted : (r.models.convert 0 {}).Ensures s _ :=
      known.restores asked 0 g' (by rw [only]; rfl) {} s (.refl s) (Model.ground_empty s) nothing
    unfold Solver.satisfied
    rw [if_pos models]
    refine Terms.ensures_bind converted fun found after _ restored => ?_
    obtain ⟨outcome, m⟩ := found
    cases outcome with
    | error e => exact Terms.ensures_pure ⟨nofun, nofun⟩
    | ok u => exact Terms.ensures_pure ⟨fun _ => ⟨m, rfl, restored⟩, nofun⟩
  unfold verdict
  split
  · next none => exact absurd none known.some
  · next g' only =>
    split
    · next decided => exact satisfied only decided
    · split
      · next refuted =>
        unfold Solver.refuted
        refine Terms.ensures_bind_of_all fun outcome now _ => ?_
        cases outcome with
        | error e => exact Terms.ensures_pure ⟨nofun, nofun⟩
        | ok proof => exact Terms.ensures_pure ⟨nofun, fun _ => ⟨g', only, refuted⟩⟩
      · exact Terms.ensures_pure ⟨nofun, nofun⟩
  · exact Terms.ensures_pure ⟨nofun, nofun⟩

/-- A check of well-sorted assertions finds a model of them, or that no assignment satisfies them. -/
theorem check_recovers (built : Tactic.Built False v.tactic) (models : v.config.models = true)
    (posed : ∀ a ∈ v.assertions, s.WellSorted Γ a.1 ∧ s.sortOf a.1 = .bool) :
    v.check.Ensures s fun found after =>
      (found.1 = .sat → ∃ m, found.2.answer.model = some m ∧ m.Ground after ∧
        ∀ a ∈ v.assertions, s.holds (m.assignment after) a.1) ∧
      (found.1 = .unsat → ∀ I : Assignment, ¬∀ a ∈ v.assertions, s.holds I a.1) := by
  unfold check
  cases made : Goal.new v.config.models v.config.proofs v.config.cores with
  | error e => exact Terms.ensures_pure ⟨nofun, nofun⟩
  | ok empty =>
    have start (I : Assignment) (A : Assumptions) :
        empty.Justified (I.reading Γ) A s ∧ empty.models = true := by
      unfold Goal.new at made
      split at made
      · cases made
      · obtain rfl := Except.ok.inj made
        exact ⟨.of_satisfied_goal rfl, models⟩
    have entered := Terms.ensures_forall fun I : Assignment =>
      assertAll_ensures (I := I) (start I .none).1 posed (fun _ _ => ⟨trivial, False.elim⟩)
        fun _ _ active => False.elim active
    have satisfied := Terms.ensures_forall fun I : Assignment => Terms.ensures_forall
      fun holds : ∀ a ∈ v.assertions, s.holds I a.1 =>
        assertAll_ensures (start I .all).1 posed (fun f member => ⟨trivial, fun _ => holds _ member⟩)
          fun f member _ => holds _ member
    refine Terms.ensures_bind (entered.and satisfied) ?_
    rintro goal middle grown ⟨entered, satisfied⟩
    obtain ⟨alike, readable, _⟩ := entered default
    have asked : goal.models = true := alike.models.trans (start default .none).2
    have ran : (v.tactic.apply v.context goal).Ensures middle _ :=
      Tactic.apply_recovers built readable.sorted readable.toLawful
    refine Terms.ensures_bind ran ?_
    rintro ⟨outcome, tactic⟩ last more found
    cases outcome with
    | error e => exact Terms.ensures_pure ⟨nofun, nofun⟩
    | ok r =>
      obtain ⟨known, keeps⟩ := found r rfl
      refine Terms.ensures_bind (verdict_recovers known models asked) ?_
      rintro ⟨verdict, answer⟩ final further ⟨sat, unsat⟩
      refine Terms.ensures_pure ⟨fun same => ?_, fun same I holds => ?_⟩
      · obtain ⟨m, given, ground, modelled⟩ := sat same
        have there := readable.sorted.satisfied_of_extends (more.trans further) modelled
        exact ⟨m, given, ground, ((entered (m.assignment final)).2.2 there).2⟩
      · obtain ⟨g', only, refuted⟩ := unsat same
        obtain ⟨g'', member, there⟩ := keeps I (satisfied I holds).2.1.satisfied
        rw [only] at member
        obtain rfl := List.mem_singleton.mp member
        obtain ⟨e, single, literal⟩ :=
          (known.subgoals g'' (by rw [only]; exact List.mem_singleton_self g'')).2.1.refuted refuted
        refine Goal.not_satisfied_of_mem (List.mem_map.mpr ⟨e, ?_, literal⟩) there
        rw [single]
        exact List.mem_singleton_self e

/-- **Tactics are sound on well-sorted formulas.** Models of the subgoals that a run of a tactic
leaves are converted to models of the goal, and an assignment that satisfies the goal satisfies some
subgoal. A solver that runs the tactic answers that its assertions are satisfiable only with a model
of all of them, and that they are unsatisfiable only if no assignment satisfies them. -/
theorem answers_sound {t : Tactic} (built : Tactic.Built False t) :
    (∀ (context : Context) (g : Goal) (s : Store) (r : TacticResult) (t' : Tactic) (after : Store),
      g.Lawful → g.models = true → g.Sorted .full s →
      (t.apply context g).run s = ((.ok r, t'), after) →
      (∀ i g', r.goals[i]? = some g' → r.models.Restores .full i g' g after) ∧
      ∀ I : Assignment, g.Satisfied (I.reading .full) s →
        ∃ g' ∈ r.goals, g'.Satisfied (I.reading .full) after) ∧
    ∀ (v v' : Solver) (s : Store) (verdict : Verdict) (after : Store), v.tactic = t →
      v.config.models = true →
      (∀ a ∈ v.assertions, s.WellSorted .full a.1 ∧ s.sortOf a.1 = .bool) →
      v.check.run s = ((verdict, v'), after) →
      (verdict = .sat → ∃ m, v'.answer.model = some m ∧ m.Ground after ∧
        ∀ a ∈ v.assertions, s.holds (m.assignment after) a.1) ∧
      (verdict = .unsat → ∀ I : Assignment, ¬∀ a ∈ v.assertions, s.holds I a.1) := by
  constructor
  · intro context g s r t' after lawful asked sorted ran
    have found : (t.apply context g).Ensures s _ := Tactic.apply_recovers built sorted lawful
    unfold Terms.Ensures at found
    rw [ran] at found
    obtain ⟨known, keeps⟩ := found r rfl
    exact ⟨known.restores asked, keeps⟩
  · rintro v v' s verdict after rfl models posed ran
    have found := check_recovers built models posed
    unfold Terms.Ensures at found
    rw [ran] at found
    exact found

section Case

variable {p clause : TermId}

/-- A solver of one assertion that splits it and stops at a satisfied case. -/
def splitting (clause : TermId) : Solver where
  tactic := .andThen (.splitClause false) .skip
  assertions := [(clause, false)]

/-- The goal of the assertion. -/
def clauseOnly (clause : TermId) : Goal :=
  { Tactic.emptyGoal with entries := [⟨clause, none, none⟩] }

/-- The clause of a constant and `true` has a satisfied case, to which the goal is reduced. -/
theorem apply_splitting (constant : s.view p = (.var "p", []))
    (members : s.view clause = (.or, [p, Store.trueId])) :
    ((splitting clause).tactic.apply .unbounded (clauseOnly clause)).run s =
      ((.ok { goals := [Tactic.emptyGoal.deeper] }, (splitting clause).tactic), s) := by
  have distinct : p ≠ Store.falseId := by
    rintro rfl
    rw [Store.view, s.node_falseId.2] at constant
    cases constant
  have whole : (Goal.split? (p, none)).run s = (none, s) := by simp [Goal.split?, constant]
  have left : (Tactic.emptyGoal.deeper.assertEntry ⟨p, none, none⟩).run s =
      ({ Tactic.emptyGoal.deeper with entries := [⟨p, none, none⟩] }, s) :=
    Goal.run_assertEntry_single rfl whole distinct
  have split := Tactic.run_split_pair members left (Goal.run_assertEntry_trueId rfl)
  obtain ⟨depth, bound⟩ : ∃ depth, Tactic.depthLimit = depth + 3 := ⟨4294967293, rfl⟩
  have ran : (Tactic.applyTo .unbounded (depth + 2) (.splitClause false) (clauseOnly clause)).run s =
      ((.ok { goals := [{ Tactic.emptyGoal.deeper with entries := [⟨p, none, none⟩] },
        Tactic.emptyGoal.deeper] }, .splitClause false), s) := by
    rw [Tactic.applyTo, Terms.run_bind, clauseOnly, split]
    rfl
  rw [Tactic.apply, bound]
  exact Tactic.run_andThen_ok ran (Tactic.run_sequence_second rfl rfl rfl (depth + 1) s)

/-- The solver answers with a model that gives nothing. -/
theorem check_splitting (constant : s.view p = (.var "p", []))
    (members : s.view clause = (.or, [p, Store.trueId])) :
    (splitting clause).check.run s =
      ((.sat, { splitting clause with answer := { model := some {} } }), s) := by
  have distinct : clause ≠ Store.falseId := by
    rintro rfl
    rw [Store.view, s.node_falseId.2] at members
    cases members
  have whole : (Goal.split? (clause, none)).run s = (none, s) := by simp [Goal.split?, members]
  have entered : (assertAll Tactic.emptyGoal [(clause, false)]).run s = (clauseOnly clause, s) := by
    have asserted : (Tactic.emptyGoal.assertEntry ⟨clause, none, none⟩).run s =
        (clauseOnly clause, s) := Goal.run_assertEntry_single rfl whole distinct
    exact asserted
  unfold check
  rw [show Goal.new _ _ _ = Except.ok Tactic.emptyGoal from rfl]
  dsimp only
  rw [Terms.run_bind, show (splitting clause).assertions = [(clause, false)] from rfl, entered]
  dsimp only
  rw [Terms.run_bind, show (splitting clause).context = .unbounded from rfl,
    apply_splitting constant members]
  rfl

/-- A clause of a constant and `true` is split into cases. The solver stops at the second one, and
the model in which the constant is false satisfies the clause. -/
theorem answers_sound_case : ∃ (s : Store) (p clause : TermId) (r : TacticResult) (v' : Solver),
    s.op p = .var "p" ∧ s.view clause = (.or, [p, Store.trueId]) ∧
    ((splitting clause).tactic.apply .unbounded (clauseOnly clause)).run s =
      ((.ok r, (splitting clause).tactic), s) ∧
    (∀ i g', r.goals[i]? = some g' → r.models.Restores .full i g' (clauseOnly clause) s) ∧
    (splitting clause).check.run s = ((.sat, v'), s) ∧
    ∃ m, v'.answer.model = some m ∧ m.Ground s ∧ s.holds (m.assignment s) clause := by
  obtain ⟨p, first, inside, constant⟩ : ∃ (p : TermId) (s : Store),
      p < s.size ∧ s.node p = ⟨.var "p", [], .bool⟩ :=
    ⟨_, _, Terms.mkVar_node (s := .initial) "p" .bool⟩
  have arguments : ∀ a ∈ [p, Store.trueId], a < first.size := by
    simpa using ⟨inside, first.node_trueId.1⟩
  have grown := (Terms.mkApp .or [p, Store.trueId]).grows first
  have made : (Terms.mkApp .or [p, Store.trueId]).Ensures first _ := Terms.mkApp_node arguments
  obtain ⟨there, whole⟩ := made
  generalize ((Terms.mkApp .or [p, Store.trueId]).run first).1 = clause at *
  generalize ((Terms.mkApp .or [p, Store.trueId]).run first).2 = s at *
  have constant := (grown.node_eq inside).trans constant
  have whole : s.node clause = ⟨.or, [p, Store.trueId], .bool⟩ := whole
  have members : s.view clause = (.or, [p, Store.trueId]) := by rw [Store.view, whole]
  have leaf : s.view p = (.var "p", []) := by rw [Store.view, constant]
  have sorted : s.WellSorted .full clause ∧ s.sortOf clause = .bool := by
    have atom : s.WellSorted .full p ∧ s.sortOf p = .bool := by
      refine ⟨.intro (grown.lt_size inside) ?_ (by simp [Store.args, constant]),
        by rw [Store.sortOf, constant]⟩
      rw [Store.op, Store.args, Store.sortOf, constant]
      exact ⟨trivial, .inl rfl⟩
    have truth : s.Formula .full default Store.trueId True := Terms.formula_trueId s
    refine ⟨.intro there ?_ ?_, by rw [Store.sortOf, whole]⟩
    · rw [Store.op, Store.args, Store.sortOf, whole]
      exact ⟨rfl, by simp, by simpa using ⟨atom.2, truth.sort_eq⟩⟩
    · simpa [Store.args, whole] using ⟨atom.1, truth.sorted⟩
  have ran := apply_splitting leaf members
  have checked := check_splitting leaf members
  obtain ⟨tactics, solvers⟩ := answers_sound (t := (splitting clause).tactic)
    (.andThen (.splitClause false) .skip)
  have lawful : (clauseOnly clause).Lawful :=
    ⟨by simp [clauseOnly, Tactic.emptyGoal], by simp [clauseOnly, Tactic.emptyGoal, Goal.keptDeps]⟩
  have posed : (clauseOnly clause).Sorted .full s := by
    simpa [Goal.Sorted, clauseOnly] using sorted
  obtain ⟨m, given, ground, holds⟩ := (solvers (splitting clause) _ s .sat s rfl rfl
    (by simpa [splitting] using sorted) checked).1 rfl
  exact ⟨s, p, clause, _, _, by rw [Store.op, constant], members, ran,
    (tactics .unbounded (clauseOnly clause) s _ _ s lawful rfl posed ran).1, checked, m, given,
    ground, holds (clause, false) (by simp [splitting])⟩

end Case

end Solver
end Stratagem
