import Stratagem.Proofs.Tactic.CaseSplit
import Stratagem.Proofs.Tactic.Elimination
import Stratagem.Proofs.Tactic.Sequence

/-!
# Runs of tactics keep justifications

Under every assignment, if the formulas of a goal are justified by what they depend on, so are those
of some subgoal that a run of a tactic leaves. The dependencies of subgoals are tracked assumptions
if those of the goal are. So the dependencies of a refutation cannot hold all together.
-/
namespace Stratagem

open Store (Extends)
open DependencySet (Covered)

namespace DependencySet

variable {α : Type} {A : Assumptions} {deps : Option DependencySet} {f : α → Option DependencySet}
  {xs : List α} {x : α}

/-- The union of what members depend on. -/
def joined (f : α → Option DependencySet) (xs : List α) (deps : Option DependencySet) :
    Option DependencySet :=
  xs.foldl (fun deps x => join deps (f x)) deps

/-- A union holds only if each part does. -/
theorem active_of_joined (active : A.Active (joined f xs deps)) :
    A.Active deps ∧ ∀ x ∈ xs, A.Active (f x) := by
  induction xs generalizing deps with
  | nil => exact ⟨active, nofun⟩
  | cons x rest tail =>
    obtain ⟨first, others⟩ := tail active
    obtain ⟨start, here⟩ := A.of_join first
    exact ⟨start, List.forall_mem_cons.mpr ⟨here, others⟩⟩

/-- A union is covered if each part is. -/
theorem covered_joined {tracked : TermId → Prop} (start : Covered tracked deps)
    (each : ∀ x ∈ xs, Covered tracked (f x)) : Covered tracked (joined f xs deps) := by
  induction xs generalizing deps with
  | nil => exact start
  | cons x rest tail =>
    obtain ⟨here, others⟩ := List.forall_mem_cons.mp each
    exact tail ((covered_join ..).mpr ⟨start, here⟩) others

/-- A union of kept parts is kept. -/
theorem kept_joined {g : Goal} (start : g.keptDeps deps = deps)
    (each : ∀ x ∈ xs, g.keptDeps (f x) = f x) :
    g.keptDeps (joined f xs deps) = joined f xs deps := by
  induction xs generalizing deps with
  | nil => exact start
  | cons x rest tail =>
    obtain ⟨here, others⟩ := List.forall_mem_cons.mp each
    exact tail (by rw [Goal.keptDeps_join, start, here]) others

end DependencySet

open DependencySet (joined active_of_joined covered_joined kept_joined)

namespace Goal

variable {R : Reading} {A : Assumptions} {s after : Store} {g g' : Goal}

/-- What the formula of a refuted goal depends on does not hold. -/
theorem Justified.not_active (known : g.Justified R A s) (refuted : g.inconsistent = true) :
    ¬A.Active g.allDeps := by
  obtain ⟨e, only, literal⟩ := known.refuted refuted
  intro active
  have member : e ∈ g.entries := by
    rw [only]
    exact List.mem_singleton_self e
  obtain ⟨p, bit, _, holds⟩ := known.entries e member
  have active : A.Active e.deps := (active_of_joined (f := Entry.deps) active).2 e member
  cases (holds active).symm.trans (R.eq_false bit literal)

/-- A goal without formulas is justified. -/
theorem Justified.of_satisfied_goal (satisfied : g.isDecidedSat = true) : g.Justified R A s := by
  obtain ⟨empty, consistent⟩ := isDecidedSat_iff.mp satisfied
  refine ⟨⟨fun refuted => ?_, ?_⟩, ?_⟩
  · rw [consistent] at refuted
    cases refuted
  · rw [empty]
    exact List.forall_mem_nil _
  · rw [empty]
    exact List.forall_mem_nil _

end Goal

namespace TacticResult

variable {R : Reading} {A : Assumptions} {s after : Store} {g g' : Goal}
  {first r : TacticResult} {results : List TacticResult}

/-- A result keeps the justifications of a goal: some subgoal is justified if the goal is. -/
structure Justifies (R : Reading) (A : Assumptions) (g : Goal) (r : TacticResult) (s : Store) :
    Prop where
  /-- The goal has truth values and tracked dependencies. -/
  readable : g.Justified R A.idle s
  /-- The subgoals produce the same, and have truth values and tracked dependencies. -/
  subgoals : ∀ g' ∈ r.goals, g.Alike g' ∧ g'.Justified R A.idle s
  /-- Some subgoal is justified if the goal is. -/
  some : g.Justified R A s → ∃ g' ∈ r.goals, g'.Justified R A s
  /-- Nothing was used up. -/
  core : r.core = none

namespace Justifies

/-- Justifications are kept also when the store grows. -/
theorem mono (known : r.Justifies R A g s) (grown : s.Extends after) :
    r.Justifies R A g after where
  readable := known.readable.mono grown
  subgoals g' member := ⟨(known.subgoals g' member).1, (known.subgoals g' member).2.mono grown⟩
  some later := by
    obtain ⟨g', member, justified⟩ := known.some (known.readable.of_extends grown later)
    exact ⟨g', member, justified.mono grown⟩
  core := known.core

/-- A goal that is left alone. -/
theorem single (known : g.Justified R A.idle s) : (single g).Justifies R A g s where
  readable := known
  subgoals g' member := by
    obtain rfl := List.mem_singleton.mp member
    exact ⟨.refl _, known⟩
  some justified := ⟨g, List.mem_singleton_self g, justified⟩
  core := rfl

/-- Results on subgoals use up nothing. -/
theorem joinedCore_eq (known : first.core = none) (all : ∀ r ∈ results, r.core = none) :
    first.joinedCore results = none := by
  unfold joinedCore
  rw [known]
  induction results with
  | nil => rfl
  | cons r rest tail =>
    obtain ⟨here, others⟩ := List.forall_mem_cons.mp all
    rw [List.foldl_cons, here]
    exact tail others

/-- A result on the only subgoal. -/
theorem after_single (known : first.Justifies R A g s) (only : first.goals = [g'])
    (next : r.Justifies R A g' s) : (first.after r).Justifies R A g s := by
  obtain ⟨alike, _⟩ := known.subgoals g' (by rw [only]; exact List.mem_singleton_self g')
  refine ⟨known.readable, fun g'' member => ?_, fun justified => ?_, ?_⟩
  · obtain ⟨alike', readable⟩ := next.subgoals g'' member
    exact ⟨alike.trans alike', readable⟩
  · obtain ⟨h, member, justified⟩ := known.some justified
    rw [only] at member
    obtain rfl := List.mem_singleton.mp member
    exact next.some justified
  · show DependencySet.join first.core r.core = none
    rw [known.core, next.core]
    rfl

/-- One of several subgoals is satisfied. -/
theorem satisfiedAt {goals : List Goal} {position : ℕ} {models : ModelConverter} {final : Goal}
    (known : first.Justifies R A g s) (shape : g' ∈ first.goals)
    (all : List.Forall₂ (fun g r => r.Justifies R A g s) goals results)
    (next : r.Justifies R A g' s) (satisfied : r.satisfied? g' = Option.some final) :
    (first.satisfiedAt (results ++ [r]) position models final).Justifies R A g s := by
  have decided := isDecidedSat_of_satisfied? satisfied
  have alike : g'.Alike final := by
    unfold satisfied? at satisfied
    split at satisfied
    · rcases left : r.goals with _ | ⟨h, rest⟩
      · rw [left] at satisfied
        obtain rfl : g'.cleared = final := by simpa using satisfied
        exact ⟨rfl, rfl, rfl⟩
      · rw [left] at satisfied
        obtain rfl : h = final := by simpa using satisfied
        exact (next.subgoals h (by rw [left]; exact List.mem_cons_self ..)).1
    · cases satisfied
  refine ⟨known.readable, fun g'' member => ?_, fun _ => ?_, ?_⟩
  · obtain rfl := List.mem_singleton.mp member
    exact ⟨(known.subgoals g' shape).1.trans alike, .of_satisfied_goal decided⟩
  · exact ⟨final, List.mem_singleton_self final, .of_satisfied_goal decided⟩
  · refine joinedCore_eq known.core fun r' member => ?_
    rcases List.mem_append.mp member with earlier | last
    · obtain ⟨_, _, found⟩ := exists_of_forall₂ all.flip earlier
      exact found.core
    · obtain rfl := List.mem_singleton.mp last
      exact next.core

/-- Results on all subgoals have subgoals that produce the same as the goal, with truth values and
tracked dependencies; some is justified if the goal is. -/
theorem flatMap (known : first.Justifies R A g s)
    (all : List.Forall₂ (fun g r => r.Justifies R A g s) first.goals results) :
    (∀ g' ∈ results.flatMap (·.goals), g.Alike g' ∧ g'.Justified R A.idle s) ∧
      (g.Justified R A s → ∃ g' ∈ results.flatMap (·.goals), g'.Justified R A s) := by
  constructor
  · intro g' member
    obtain ⟨r, among, inside⟩ := List.mem_flatMap.mp member
    obtain ⟨h, there, found⟩ := exists_of_forall₂ all.flip among
    obtain ⟨alike, readable⟩ := found.subgoals g' inside
    exact ⟨(known.subgoals h there).1.trans alike, readable⟩
  · intro justified
    obtain ⟨h, there, justified⟩ := known.some justified
    obtain ⟨r, among, found⟩ := exists_of_forall₂ all there
    obtain ⟨g', inside, justified⟩ := found.some justified
    exact ⟨g', List.mem_flatMap.mpr ⟨r, among, inside⟩, justified⟩

/-- Subgoals that are all refuted come down to one, whose dependencies cannot hold if the goal is
justified. -/
theorem collapsed {template : Goal} {goals : List Goal} {proof : Option Proof}
    (subgoals : ∀ g' ∈ goals, g.Alike g' ∧ g'.Justified R A.idle s)
    (some : g.Justified R A s → ∃ g' ∈ goals, g'.Justified R A s) (there : template ∈ goals)
    (refuted : ∀ g' ∈ goals, g'.inconsistent = true) :
    (template.cleared.assertEntry ⟨Store.falseId, proof, joined Goal.allDeps goals none⟩).Ensures s
      fun g' after => g.Alike g' ∧ g'.Justified R A.idle after ∧
        (g.Justified R A s → g'.Justified R A after) := by
  have alike := (subgoals template there).1
  have covered : Covered A.tracked (joined Goal.allDeps goals none) :=
    covered_joined DependencySet.covered_none fun g' member =>
      covered_joined DependencySet.covered_none fun e inside => by
        obtain ⟨_, _, tracked, _⟩ := (subgoals g' member).2.entries e inside
        exact tracked
  have kept : template.cleared.keptDeps (joined Goal.allDeps goals none) =
      joined Goal.allDeps goals none :=
    kept_joined (Goal.keptDeps_none _) fun g' member =>
      kept_joined (Goal.keptDeps_none _) fun e inside => by
        rw [← (subgoals g' member).2.kept e inside, (subgoals g' member).1.keptDeps_eq]
        exact (alike.keptDeps_eq _).trans (Goal.keptDeps_keptDeps ..)
  have readable := Goal.assertEntry_justified (e := ⟨Store.falseId, proof, _⟩)
    (Goal.Justified.cleared R A.idle s template) (R.falseId s) (kept.symm ▸ covered) False.elim
  have justified := Terms.ensures_forall fun holds : g.Justified R A s =>
    Goal.assertEntry_justified (e := ⟨Store.falseId, proof, joined Goal.allDeps goals none⟩)
      (Goal.Justified.cleared R A s template) (R.falseId s) (kept.symm ▸ covered) fun active => by
        obtain ⟨g', member, justified⟩ := some holds
        exact absurd ((active_of_joined (kept ▸ active)).2 g' member)
          (justified.not_active (refuted g' member))
  apply (readable.and justified).imp
  rintro g' after _ ⟨⟨produced, readable, _⟩, justified⟩
  refine ⟨alike.trans ⟨produced.models, produced.proofs, produced.cores⟩, readable, fun holds => ?_⟩
  exact (justified holds).2.1

end Justifies

/-- What subgoals that are all refuted come down to: whatever asserting `false` ensures, with the
dependencies of all of them. -/
theorem collapsed_ensures {converter : ProofConverter} {template : Goal} {goals : List Goal}
    {post : Goal → Store → Prop}
    (asserted : ∀ proof now, s.Extends now → (template.cleared.assertEntry
      ⟨Store.falseId, proof, joined Goal.allDeps goals none⟩).Ensures now post) :
    (collapsed converter template goals).Ensures s fun outcome after => ∀ g', outcome = .ok g' →
      post g' after := by
  unfold collapsed
  apply Terms.ensures_bind_of_all
  intro outcome now grown
  cases outcome with
  | error e => exact Terms.ensures_pure (by simp)
  | ok proof =>
    apply Terms.ensures_bind (asserted proof now grown)
    intro g' after _ known
    apply Terms.ensures_pure
    rintro _ ⟨⟩
    exact known

/-- The proof converter of results on all subgoals. -/
abbrev combinedProofs (first : TacticResult) (results : List TacticResult) : ProofConverter :=
  .ofBranches first.proofs (results.map (·.proofs)) (results.map (·.goals.length))

/-- What results on all subgoals become: their subgoals together, or one refuted goal if these are
all refuted. -/
theorem afterAll_ensures {post : Goal → Store → Prop}
    (collapses : ∀ template ∈ results.flatMap (·.goals),
      (∀ g' ∈ results.flatMap (·.goals), g'.inconsistent = true) →
      (collapsed (first.combinedProofs results) template (results.flatMap (·.goals))).Ensures s
        fun outcome after => ∀ g', outcome = .ok g' → post g' after) :
    (first.afterAll results).Ensures s fun outcome after => ∀ r, outcome = .ok r →
      r.core = first.joinedCore results ∧
        ((r.goals = results.flatMap (·.goals) ∧
          r.models = .ofBranches first.models (branches 0 results) ∧
          r.proofs = first.combinedProofs results) ∨
        ∃ g', r.goals = [g'] ∧ r.models = .identity ∧ r.proofs = .identity ∧ post g' after) := by
  unfold afterAll
  dsimp only
  split
  · next template rest shape =>
    split
    · next refuted =>
      have there : template ∈ results.flatMap (·.goals) := by
        rw [shape]
        exact List.mem_cons_self ..
      have all : ∀ g' ∈ results.flatMap (·.goals), g'.inconsistent = true :=
        List.all_eq_true.mp refuted
      apply Terms.ensures_bind (collapses template there all)
      intro outcome after _ known
      cases outcome with
      | error e => exact Terms.ensures_pure (by simp [Except.map])
      | ok g' =>
        apply Terms.ensures_pure
        rintro r ⟨⟩
        exact ⟨rfl, .inr ⟨g', rfl, rfl, rfl, known g' rfl⟩⟩
    · apply Terms.ensures_pure
      rintro r ⟨⟩
      exact ⟨rfl, .inl ⟨rfl, rfl, rfl⟩⟩
  · apply Terms.ensures_pure
    rintro r ⟨⟩
    exact ⟨rfl, .inl ⟨rfl, rfl, rfl⟩⟩

end TacticResult

namespace Promise

open TacticResult (Justifies)

variable {Γ : Signature} {I : Assignment} {A : Assumptions} {s : Store} {g : Goal}

/-- The promise that some subgoal is justified if the goal is. -/
def justified (R : Reading) (A : Assumptions) : Promise where
  Pre g s := g.Justified R A.idle s
  Post g r s := r.Justifies R A g s
  pre_mono known grown := known.mono grown
  post_mono known grown := known.mono grown
  keep known := .single known
  subgoals known g' member := (known.subgoals g' member).2
  after known only next := known.after_single only next
  satisfiedAt known shape all next satisfied := by
    refine known.satisfiedAt ?_ all next satisfied
    rw [shape]
    exact List.mem_append_right _ (List.mem_cons_self ..)
  afterAll := by
    intro g first results s known _ all
    have all : List.Forall₂ (fun g r => r.Justifies R A g s) first.goals results :=
      all.imp fun _ _ both => both.1
    have core : first.joinedCore results = none := Justifies.joinedCore_eq known.core fun r member =>
      have ⟨_, _, found⟩ := exists_of_forall₂ all.flip member
      found.core
    obtain ⟨subgoals, some⟩ := known.flatMap all
    have collapses : ∀ template ∈ results.flatMap (·.goals),
        (∀ g' ∈ results.flatMap (·.goals), g'.inconsistent = true) →
        (TacticResult.collapsed (first.combinedProofs results) template
          (results.flatMap (·.goals))).Ensures s fun outcome after => ∀ g', outcome = .ok g' →
            g.Alike g' ∧ g'.Justified R A.idle after ∧
              (g.Justified R A after → g'.Justified R A after) := by
      intro template there refuted
      refine TacticResult.collapsed_ensures fun proof now grown => ?_
      have made : (template.cleared.assertEntry ⟨Store.falseId, proof, _⟩).Ensures now _ :=
        Justifies.collapsed (fun g' member => ⟨(subgoals g' member).1,
          (subgoals g' member).2.mono grown⟩) (fun justified => by
            obtain ⟨g', member, justified⟩ := some (known.readable.of_extends grown justified)
            exact ⟨g', member, justified.mono grown⟩) there refuted
      refine made.imp fun g' after more ⟨alike, readable, justified⟩ => ⟨alike, readable, ?_⟩
      exact fun holds => justified ((known.readable.mono grown).of_extends more holds)
    apply (TacticResult.afterAll_ensures collapses).imp
    rintro outcome after grown result r rfl
    obtain ⟨used, outcome⟩ := result r rfl
    have readable := known.readable.mono grown
    rcases outcome with ⟨goals, -, -⟩ | ⟨g', goals, -, -, alike, plain, justified⟩
    · refine ⟨readable, fun g' member => ?_, fun holds => ?_, used.trans core⟩
      · rw [goals] at member
        exact ⟨(subgoals g' member).1, (subgoals g' member).2.mono grown⟩
      · obtain ⟨g', member, justified⟩ := some (known.readable.of_extends grown holds)
        exact ⟨g', goals ▸ member, justified.mono grown⟩
    · refine ⟨readable, fun h member => ?_, fun holds => ⟨g', ?_, justified holds⟩, used.trans core⟩
      · rw [goals] at member
        obtain rfl := List.mem_singleton.mp member
        exact ⟨alike, plain⟩
      · rw [goals]
        exact List.mem_singleton_self g'

/-- Simplification, elimination of constants and case splits keep justifications. -/
theorem justified_basics (Γ : Signature) (I : Assignment) (A : Assumptions) :
    (justified (I.reading Γ) A).Basics False where
  simplify := by
    intro context g s known r _
    have readable : (Simplify.run context g).Ensures r s _ fun _ _ _ => True :=
      Simplify.run_ensures known
    have justified : (Simplify.run context g).Ensures r s _ fun _ _ _ => True :=
      Attempt.ensures_forall fun holds : g.Justified (I.reading Γ) A s =>
        Simplify.run_ensures holds
    apply (readable.and justified).imp
    · rintro _ _ after grown ⟨⟨g', rfl, follows⟩, justified⟩
      refine ⟨⟨known.mono grown, fun h member => ?_, fun holds => ?_, rfl⟩, trivial⟩
      · obtain rfl := List.mem_singleton.mp member
        exact ⟨follows.alike, follows.justified⟩
      · obtain ⟨h, same, follows⟩ := justified (Goal.Justified.of_extends known grown holds)
        have only : (TacticResult.single g').goals = [h] := congrArg TacticResult.goals same
        exact ⟨h, by rw [only]; exact List.mem_singleton_self h, follows.justified⟩
    · exact fun _ _ _ _ _ => trivial
  solveEqs := by
    intro context g s solver known
    apply (EquationSolver.run_ensures known.sorted known.toLawful).imp
    rintro found after grown result r outcome
    obtain ⟨g', defs, rfl, solves⟩ := result r outcome
    refine ⟨known.mono grown, fun h member => ?_, fun holds => ?_, rfl⟩
    · obtain rfl := List.mem_singleton.mp member
      exact ⟨⟨solves.alike.models, solves.alike.proofs, solves.alike.cores⟩,
        (solves.justified I A.idle known).deeper⟩
    · have before := Goal.Justified.of_extends known grown holds
      exact ⟨g'.deeper, List.mem_singleton_self _, (solves.justified I A before).deeper⟩
  splitClause := by
    intro context g s largest known state _
    have readable : (CaseSplit.run largest context g).Ensures () s _ fun _ _ _ => True :=
      CaseSplit.run_ensures known
    have justified : (CaseSplit.run largest context g).Ensures () s _ fun _ _ _ => True :=
      Attempt.ensures_forall fun holds : g.Justified (I.reading Γ) A s =>
        CaseSplit.run_ensures holds
    apply (readable.and justified).imp
    · rintro r _ after grown ⟨⟨_, core, follows, _⟩, justified⟩
      refine ⟨⟨known.mono grown, fun g' member => ?_, fun holds => ?_, core⟩, trivial⟩
      · exact ⟨(follows g' member).alike, (follows g' member).justified⟩
      · exact (justified (Goal.Justified.of_extends known grown holds)).2.2.2
    · exact fun _ _ _ _ _ => trivial
  bitBlast := False.elim

end Promise
end Stratagem
