import Stratagem.Proofs.Converter.Definition
import Stratagem.Proofs.Tactic.Justification

/-!
# Runs of tactics recover models

A model of a subgoal that a run of a tactic leaves is converted to a model of the goal, whatever the
tactic is built from: a tactic that leaves formulas which follow from each other has nothing to
convert, the elimination of constants extends the model by their definitions, and where tactics run
one after the other the later one converts first. The position of the subgoal decides which
converters of a case split are applied.
-/
namespace Stratagem

open Store (Extends)

variable {Γ : Signature} {A : Assumptions} {s after : Store} {g g' g'' : Goal}

namespace Goal

/-- A goal with the formula `false` is not satisfied. -/
theorem not_satisfied_of_mem {R : Reading} (member : Store.falseId ∈ g.formulas) :
    ¬g.Satisfied R s := by
  intro satisfied
  obtain ⟨e, inside, literal⟩ := List.mem_map.mp member
  have bit := satisfied e inside
  rw [literal] at bit
  cases R.eq_false bit rfl

/-- A sorted goal that is satisfied in a store that has grown was so before. -/
theorem Sorted.satisfied_of_extends {I : Assignment} (sorted : g.Sorted Γ s) (grown : s.Extends after)
    (satisfied : g.Satisfied (I.reading Γ) after) : g.Satisfied (I.reading Γ) s := by
  intro e member
  obtain ⟨known, bool⟩ := sorted e member
  obtain ⟨p, bit⟩ := Store.Formula.exists_bit known bool I
  exact (I.reading Γ).unique ((I.reading Γ).mono bit grown) (satisfied e member) ▸ bit

/-- Asserting `false` in a goal without formulas. -/
theorem cleared_assertEntry_falseId {proof : Option Proof} {deps : Option DependencySet}
    (Γ : Signature) :
    (g.cleared.assertEntry ⟨Store.falseId, proof, deps⟩).Ensures s
      fun g' after => g.Alike g' ∧ g'.Lawful ∧ g'.Sorted Γ after ∧
        Store.falseId ∈ g'.formulas := by
  have readable := Goal.assertEntry_justified (e := ⟨Store.falseId, proof, deps⟩)
    (Goal.Justified.cleared ((default : Assignment).reading Γ) .none s g)
    (((default : Assignment).reading Γ).falseId s) (fun _ _ _ _ => trivial) False.elim
  refine (readable.and (assertEntry_falseId proof deps rfl)).imp fun g' after _ known => ?_
  obtain ⟨⟨alike, justified, _⟩, member⟩ := known
  exact ⟨⟨alike.models, alike.proofs, alike.cores⟩, justified.toLawful, justified.sorted, member⟩

end Goal

namespace ModelConverter

open Attempt

variable {c d : ModelConverter} {i j : ℕ}

/-- A converter turns a model of a subgoal at a position into a model of the goal, unless evaluating
definitions takes too many steps. -/
def Restores (Γ : Signature) (c : ModelConverter) (i : ℕ) (g' g : Goal) (s : Store) : Prop :=
  ∀ m now, s.Extends now → m.Ground now → g'.Satisfied ((m.assignment now).reading Γ) now →
    (c.apply i).Ensures m now (fun _ m' after => m'.Ground after ∧
      g.Satisfied ((m'.assignment after).reading Γ) after)
      fun e _ _ => e = .stepsExceeded Model.stepLimit

/-- Models are converted also when the store grows. -/
theorem Restores.mono (restores : c.Restores Γ i g' g s) (grown : s.Extends after) :
    c.Restores Γ i g' g after := fun m now more => restores m now (grown.trans more)

/-- A model of a goal from which another one follows is one of that goal. -/
theorem restores_identity (follows : ∀ I : Assignment, g.Follows (I.reading Γ) A g' s) (i : ℕ) :
    identity.Restores Γ i g' g s := by
  intro m now grown ground satisfied
  have known := follows (m.assignment now)
  rw [apply_identity]
  exact ensures_pure ⟨ground, (known.satisfied
    (known.justified.satisfied_of_extends grown satisfied)).mono grown⟩

/-- A model is converted to one of the subgoal of an earlier tactic and then to one of the goal. -/
theorem Restores.ensures_bind (later : d.Restores Γ j g'' g' s) (earlier : c.Restores Γ i g' g s)
    {m : Model} (grown : s.Extends after) (ground : m.Ground after)
    (satisfied : g''.Satisfied ((m.assignment after).reading Γ) after) :
    (do d.apply j; c.apply i : Attempt Model Unit).Ensures m after (fun _ m' last =>
      m'.Ground last ∧ g.Satisfied ((m'.assignment last).reading Γ) last)
      fun e _ _ => e = .stepsExceeded Model.stepLimit :=
  Attempt.ensures_bind (later m after grown ground satisfied) fun _ m' last more known =>
    earlier m' last (grown.trans more) known.1 known.2

/-- The converter of two tactics of which the first left one subgoal. -/
theorem Restores.andThen (later : d.Restores Γ i g'' g' s) (earlier : c.Restores Γ 0 g' g s)
    (position : c.Uniform ∨ i = 0) : (c.andThen d).Restores Γ i g'' g s := by
  intro m now grown ground satisfied
  have order : (c.andThen d).apply i = (do d.apply i; c.apply 0) := by
    rcases position with uniform | rfl
    · exact andThen_apply uniform d i
    · exact andThen_apply_zero c d
  rw [order]
  exact later.ensures_bind earlier grown ground satisfied

variable {results : List TacticResult}

/-- The branch of a subgoal of results: its converter is applied, and then that of the goal it was
made of. -/
theorem applyBranch_branches (position : ℕ)
    (there : (results.flatMap (·.goals))[i]? = some g) :
    ∃ k j r, results[k]? = some r ∧ r.goals[j]? = some g ∧
      applyBranch (TacticResult.branches position results) i = (do
        r.models.apply j
        return some (position + k)) := by
  induction results generalizing i position with
  | nil => cases there
  | cons r rest tail =>
    rw [List.flatMap_cons, List.getElem?_append] at there
    rw [TacticResult.branches, applyBranch]
    split at there
    · next short => exact ⟨0, i, r, rfl, there, by rw [if_pos short]; rfl⟩
    · next long =>
      obtain ⟨k, j, r', found, inside, applied⟩ := tail (position + 1) there
      refine ⟨k + 1, j, r', found, inside, ?_⟩
      rw [if_neg long, applied, Nat.add_right_comm, Nat.add_assoc]

end ModelConverter

namespace TacticResult

open ModelConverter

variable {first r : TacticResult} {results : List TacticResult}

/-- A result from whose subgoals models are recovered. -/
structure Recovers (Γ : Signature) (g : Goal) (r : TacticResult) (s : Store) : Prop where
  /-- The goal is as goals are built. -/
  lawful : g.Lawful
  /-- The formulas of the goal are well-sorted. -/
  sorted : g.Sorted Γ s
  /-- A satisfied goal has one subgoal, and converters look at positions only where they must. -/
  settles : Settles g r
  /-- There is a subgoal. -/
  some : r.goals ≠ []
  /-- The subgoals produce the same, are as goals are built and have well-sorted formulas. -/
  subgoals : ∀ g' ∈ r.goals, g.Alike g' ∧ g'.Lawful ∧ g'.Sorted Γ s
  /-- If models are asked for, those of subgoals are converted to models of the goal. -/
  restores : g.models = true → ∀ i g', r.goals[i]? = Option.some g' →
    r.models.Restores Γ i g' g s

namespace Recovers

/-- Models are recovered also when the store grows. -/
theorem mono (known : r.Recovers Γ g s) (grown : s.Extends after) : r.Recovers Γ g after where
  lawful := known.lawful
  sorted := known.sorted.mono grown
  settles := known.settles
  some := known.some
  subgoals g' member :=
    have ⟨alike, lawful, sorted⟩ := known.subgoals g' member
    ⟨alike, lawful, sorted.mono grown⟩
  restores asked i g' there := (known.restores asked i g' there).mono grown

/-- A single subgoal from which the goal follows, with nothing to convert. -/
theorem of_follows (lawful : g.Lawful) (sorted : g.Sorted Γ s) (settles : Settles g r) (some : r.goals ≠ [])
    (models : r.models = .identity)
    (follows : ∀ g' ∈ r.goals, ∀ I : Assignment, g.Follows (I.reading Γ) A g' s) :
    r.Recovers Γ g s where
  lawful := lawful
  sorted := sorted
  settles := settles
  some := some
  subgoals g' member :=
    have known := follows g' member default
    ⟨known.alike, known.justified.toLawful, known.justified.sorted⟩
  restores _ i g' there := by
    rw [models]
    exact restores_identity (follows g' (List.mem_of_getElem? there)) i

/-- A result on the only subgoal. -/
theorem after_single (known : first.Recovers Γ g s) (only : first.goals = [g'])
    (next : r.Recovers Γ g' s) : (first.after r).Recovers Γ g s := by
  obtain ⟨alike, _⟩ := known.subgoals g' (by rw [only]; exact List.mem_singleton_self g')
  refine ⟨known.lawful, known.sorted, Tactic.settling.after (s := s) known.settles only next.settles,
    next.some, fun g'' member => ?_, fun asked i g'' there => ?_⟩
  · obtain ⟨alike', rest⟩ := next.subgoals g'' member
    exact ⟨alike.trans alike', rest⟩
  · have there : r.goals[i]? = Option.some g'' := there
    have earlier := known.restores asked 0 g' (by rw [only]; rfl)
    refine (next.restores (alike.models.trans asked) i g'' there).andThen earlier ?_
    -- Only a satisfied goal has a converter that looks at the position, and it has one subgoal.
    rcases known.settles.uniform g' only with satisfied | uniform
    · obtain ⟨h, single, _⟩ := next.settles.satisfied satisfied
      rw [single] at there
      have short := (List.getElem?_eq_some_iff.mp there).1
      exact .inr (Nat.lt_one_iff.mp short)
    · exact .inl uniform

/-- A result that is satisfied is the satisfied goal. -/
theorem goals_of_satisfied? {final : Goal} (some : r.goals ≠ [])
    (satisfied : r.satisfied? g = Option.some final) : r.goals = [final] := by
  obtain ⟨goals, _, _, _⟩ := r
  rcases goals with _ | ⟨g', _ | ⟨_, _⟩⟩
  · exact absurd rfl some
  · have chosen : (if g'.isDecidedSat = true then Option.some g' else none) = Option.some final :=
      satisfied
    split at chosen
    · rw [Option.some.inj chosen]
    · cases chosen
  · simp [satisfied?, isDecidedSat] at satisfied

/-- One of several subgoals is satisfied. -/
theorem satisfiedAt {position : ℕ} {final : Goal} (known : first.Recovers Γ g s)
    (there : first.goals[position]? = Option.some g') (next : r.Recovers Γ g' s)
    (satisfied : r.satisfied? g' = Option.some final) :
    (first.satisfiedAt results position r.models final).Recovers Γ g s := by
  have only := goals_of_satisfied? next.some satisfied
  have decided := isDecidedSat_of_satisfied? satisfied
  obtain ⟨alike, _⟩ := known.subgoals g' (List.mem_of_getElem? there)
  refine ⟨known.lawful, known.sorted, ⟨fun _ => ⟨final, rfl, decided⟩, fun g'' same =>
    .inl (List.singleton_inj.mp same ▸ decided)⟩, List.cons_ne_nil _ _, fun g'' member => ?_,
    fun asked i g'' place => ?_⟩
  · obtain rfl := List.mem_singleton.mp member
    obtain ⟨alike', rest⟩ := next.subgoals g'' (by rw [only]; exact List.mem_singleton_self g'')
    exact ⟨alike.trans alike', rest⟩
  · obtain ⟨short, rfl⟩ := List.getElem?_eq_some_iff.mp place
    obtain rfl : i = 0 := Nat.lt_one_iff.mp short
    have later := next.restores (alike.models.trans asked) 0 final (by rw [only]; rfl)
    have earlier := known.restores asked position g' there
    intro m now grown ground satisfied
    have order : (ofBranches first.models [⟨position, r.models, 1⟩]).apply 0 = (do
        r.models.apply 0
        first.models.apply position) := by
      rw [ofBranches_apply _ (by simp [total]), apply, applyBranch, if_pos Nat.one_pos]
      simp
    show (ModelConverter.apply (ofBranches _ _) 0).Ensures m now _ _
    rw [order]
    exact later.ensures_bind earlier grown ground satisfied

/-- Results on several subgoals, none of which is satisfied. -/
theorem afterAll (known : first.Recovers Γ g s) (several : 1 < first.goals.length)
    (all : List.Forall₂ (fun g r => r.Recovers Γ g s ∧ r.satisfied? g = none) first.goals results) :
    (first.afterAll results).Ensures s fun outcome after => ∀ r, outcome = .ok r →
      r.Recovers Γ g after := by
  have settled := afterAll_settles (s := s) known.settles several
    (all.imp fun _ _ both => ⟨both.1.settles, both.2⟩)
  have subgoals : ∀ g' ∈ results.flatMap (·.goals), g.Alike g' ∧ g'.Lawful ∧ g'.Sorted Γ s := by
    intro g' member
    obtain ⟨r, among, inside⟩ := List.mem_flatMap.mp member
    obtain ⟨h, there, found, _⟩ := exists_of_forall₂ all.flip among
    obtain ⟨alike, rest⟩ := found.subgoals g' inside
    exact ⟨(known.subgoals h there).1.trans alike, rest⟩
  have collapses : ∀ template ∈ results.flatMap (·.goals),
      (∀ g' ∈ results.flatMap (·.goals), g'.inconsistent = true) →
      (collapsed (first.combinedProofs results) template (results.flatMap (·.goals))).Ensures s
        fun outcome after => ∀ g', outcome = .ok g' → g.Alike g' ∧ g'.Lawful ∧ g'.Sorted Γ after ∧
          Store.falseId ∈ g'.formulas := by
    intro template member _
    refine collapsed_ensures fun proof now grown => ?_
    exact (Goal.cleared_assertEntry_falseId Γ).imp fun g' _ _ found =>
      ⟨(subgoals template member).1.trans found.1, found.2⟩
  refine (settled.and (afterAll_ensures collapses)).imp fun outcome after grown found r ok => ?_
  obtain ⟨settles, result⟩ := found
  obtain ⟨_, result⟩ := result r ok
  rcases result with ⟨goals, models, _⟩ | ⟨g', goals, models, _, alike, lawful, sorted, member⟩
  · refine ⟨known.lawful, known.sorted.mono grown, settles r ok, ?_, fun g' inside => ?_,
      fun asked i g'' place => ?_⟩
    · have count := length_le_flatMap fun r member =>
        have ⟨_, _, found, _⟩ := exists_of_forall₂ all.flip member
        found.some
      rw [goals, ← List.length_pos_iff]
      rw [← all.length_eq] at count
      omega
    · obtain ⟨alike, lawful, sorted⟩ := subgoals g' (goals ▸ inside)
      exact ⟨alike, lawful, sorted.mono grown⟩
    · rw [goals] at place
      have short : i < total (branches 0 results) := by
        rw [total_branches]
        exact (List.getElem?_eq_some_iff.mp place).1
      obtain ⟨k, j, r', found, inside, applied⟩ := applyBranch_branches 0 place
      obtain ⟨h, there, next⟩ : ∃ h, first.goals[k]? = Option.some h ∧ r'.Recovers Γ h s := by
        obtain ⟨within, rfl⟩ := List.getElem?_eq_some_iff.mp found
        have there : k < first.goals.length := all.length_eq ▸ within
        exact ⟨_, List.getElem?_eq_getElem there, (all.get there within).1⟩
      obtain ⟨alike, _⟩ := known.subgoals h (List.mem_of_getElem? there)
      have later := next.restores (alike.models.trans asked) j g'' inside
      intro m now more ground satisfied
      have order : r.models.apply i = (do
          r'.models.apply j
          first.models.apply k) := by
        rw [models, ofBranches_apply _ short, apply, applied, Nat.zero_add]
        simp
      rw [order]
      exact later.ensures_bind (known.restores asked k h there) (grown.trans more) ground satisfied
  · refine ⟨known.lawful, known.sorted.mono grown, settles r ok, ?_, fun h inside => ?_,
      fun asked i g'' place => ?_⟩
    · rw [goals]
      exact List.cons_ne_nil _ _
    · rw [goals] at inside
      obtain rfl := List.mem_singleton.mp inside
      exact ⟨alike, lawful, sorted⟩
    · have same : g'' ∈ r.goals := List.mem_of_getElem? place
      rw [goals] at same
      obtain rfl := List.mem_singleton.mp same
      exact fun m now _ _ satisfied => absurd satisfied (Goal.not_satisfied_of_mem member)

end Recovers

end TacticResult

namespace EquationSolver

open ModelConverter Attempt

variable {defs : List Definition}

/-- A model of the goal that is left is extended by the definitions of the eliminated constants. -/
theorem restores_result (asked : g'.models = true) (known : g.Solves Γ s defs g' after) (i : ℕ) :
    (result g' defs).models.Restores Γ i g'.deeper g after := by
  intro m now grown ground satisfied
  have left : g'.Satisfied ((m.assignment now).reading Γ) after :=
    known.sorted.satisfied_of_extends grown satisfied
  have before := known.satisfied (m.assignment now) left
  unfold result
  dsimp only
  split
  · have definitions : ∀ d ∈ defs, now.IsDefinition Γ d :=
      fun d member => (known.definitions d member).mono grown
    rw [ModelConverter.apply]
    refine (define_ensures ground definitions).imp (fun _ m' last more found => ?_)
      fun _ _ _ _ failed => failed
    obtain ⟨ground, same⟩ := found
    rw [same, Store.extended_eq known.definitions grown]
    exact ⟨ground, before.mono (grown.trans more)⟩
  · next none =>
    have empty : defs = [] := by simpa [asked] using none
    rw [empty] at before
    rw [apply_identity]
    exact ensures_pure ⟨ground, before.mono grown⟩

end EquationSolver

namespace Promise

open TacticResult (Recovers)

/-- The promise that models of subgoals are recovered. -/
def recovering (Γ : Signature) : Promise where
  Pre g s := g.Lawful ∧ g.Sorted Γ s
  Post g r s := r.Recovers Γ g s
  pre_mono known grown := ⟨known.1, known.2.mono grown⟩
  post_mono known grown := known.mono grown
  keep known := .of_follows known.1 known.2
    (TacticResult.settles_single id ModelConverter.uniform_identity) (List.cons_ne_nil _ _) rfl
    fun g' member I => by
      obtain rfl := List.mem_singleton.mp member
      exact .refl (known.2.justified known.1 I)
  subgoals known g' member := (known.subgoals g' member).2
  after known only next := known.after_single only next
  satisfiedAt known shape _ next satisfied := known.satisfiedAt (by rw [shape]; simp) next satisfied
  afterAll known several all := known.afterAll several all

/-- Simplification, elimination of constants and case splits recover models. -/
theorem recovering_basics (Γ : Signature) : (recovering Γ).Basics False where
  simplify := by
    intro context g s known r _
    have follows : (Simplify.run context g).Ensures r s _ fun _ _ _ => True :=
      Attempt.ensures_forall fun I => Simplify.run_ensures (known.2.justified known.1 I)
    refine (follows.and Tactic.simplify_settles).imp (fun result _ after grown found => ?_)
      fun _ _ _ _ _ => trivial
    obtain ⟨follows, settles⟩ := found
    obtain ⟨g', rfl, _⟩ := follows default
    refine ⟨.of_follows (A := .none) known.1 (known.2.mono grown) settles (List.cons_ne_nil _ _)
      rfl fun h member I => ?_, trivial⟩
    obtain rfl := List.mem_singleton.mp member
    obtain ⟨h', same, follows⟩ := follows I
    obtain rfl : h = h' := List.singleton_inj.mp (congrArg TacticResult.goals same)
    exact follows
  solveEqs := by
    intro context g s solver known
    refine ((EquationSolver.run_ensures known.2 known.1).and (Tactic.solveEqs_settles solver)).imp
      fun found after grown result r ok => ?_
    obtain ⟨g', defs, rfl, solves⟩ := result.1 r ok
    refine ⟨known.1, known.2.mono grown, result.2 _ ok, List.cons_ne_nil _ _, fun h member => ?_,
      fun asked i h there => ?_⟩
    · obtain rfl := List.mem_singleton.mp member
      exact ⟨⟨solves.alike.models, solves.alike.proofs, solves.alike.cores⟩,
        ⟨solves.lawful.refuted, solves.lawful.kept⟩, solves.sorted⟩
    · obtain rfl := List.mem_singleton.mp (List.mem_of_getElem? there)
      exact EquationSolver.restores_result (solves.alike.models.trans asked) solves i
  splitClause := by
    intro context g s largest known state _
    have follows : (CaseSplit.run largest context g).Ensures () s _ fun _ _ _ => True :=
      Attempt.ensures_forall fun I => CaseSplit.run_ensures (known.2.justified known.1 I)
    refine (follows.and (Tactic.splitClause_settles largest)).imp
      (fun r _ after grown found => ?_) fun _ _ _ _ _ => trivial
    obtain ⟨follows, settles⟩ := found
    obtain ⟨models, _, _, h, inside, _⟩ := follows default
    exact ⟨.of_follows known.1 (known.2.mono grown) settles (List.ne_nil_of_mem inside) models
      fun g' member I => (follows I).2.2.1 g' member, trivial⟩
  bitBlast := False.elim

end Promise

namespace Tactic

/-- What a run of a tactic on a goal that asks for models leaves: an assignment that satisfies the
goal satisfies some subgoal, and models of subgoals are converted to models of the goal. -/
theorem apply_recovers {t : Tactic} {context : Context} (built : Built False t)
    (sorted : g.Sorted Γ s) (lawful : g.Lawful) : (t.apply context g).Ensures s fun found after =>
      ∀ r, found.1 = .ok r → r.Recovers Γ g after ∧ ∀ I : Assignment,
        g.Satisfied (I.reading Γ) s → ∃ g' ∈ r.goals, g'.Satisfied (I.reading Γ) after := by
  have recovered : (t.apply context g).Ensures s ((Promise.recovering Γ).Meets False g) :=
    (Promise.apply_meets (Promise.recovering_basics Γ) depthLimit).1 built ⟨lawful, sorted⟩
  have satisfied : (t.apply context g).Ensures s fun found after => ∀ I : Assignment,
      (Promise.justified (I.reading Γ) .all).Meets False g found after :=
    Terms.ensures_forall fun I =>
      (Promise.apply_meets (Promise.justified_basics Γ I .all) depthLimit).1 built
        (sorted.justified lawful I)
  refine (recovered.and satisfied).imp fun found after grown known r ok =>
    ⟨known.1.2 r ok, fun I holds => ?_⟩
  have justified := (sorted.justified lawful I).of_satisfied holds
  obtain ⟨g', member, there⟩ := ((known.2 I).2 r ok).some (justified.mono grown)
  exact ⟨g', member, there.satisfied⟩

end Tactic
end Stratagem
