import Stratagem.Proofs.Rewriting.Equivalence
import Stratagem.Proofs.Tactic.Justification
import Stratagem.Proofs.Tactic.Refutation
import Stratagem.Solver

/-!
# What solvers answer

A core is a set of tracked assertions that cannot hold together with the untracked ones. A proof of
unsatisfiable assertions concludes `false` from assertions only, by sound steps.
-/
namespace Stratagem.Solver

open Store (Extends)
open DependencySet (Covered)

variable {Γ : Signature} {I : Assignment} {A : Assumptions} {s after : Store} {g : Goal}
  {v : Solver} {config : SolverConfig} {r : TacticResult} {assertions : List (TermId × Bool)}

/-- What holds of the goal that assertions are entered in: it produces the same, it is justified, and
it is satisfied only if the goal before and the assertions are. -/
def Entered (Γ : Signature) (I : Assignment) (A : Assumptions) (s : Store) (g : Goal)
    (assertions : List (TermId × Bool)) (g' : Goal) (after : Store) : Prop :=
  g.Alike g' ∧ g'.Justified (I.reading Γ) A after ∧
    (g'.Satisfied (I.reading Γ) after →
      g.Satisfied (I.reading Γ) after ∧ ∀ a ∈ assertions, s.holds I a.1)

/-- The goal of assertions is justified if the assertions are: a tracked one is tracked and holds if
it is taken to hold, and an untracked one holds. It is satisfied only if they all are. -/
theorem assertAll_ensures (known : g.Justified (I.reading Γ) A s)
    (posed : ∀ a ∈ assertions, s.WellSorted Γ a.1 ∧ s.sortOf a.1 = .bool)
    (tracked : ∀ f, (f, true) ∈ assertions →
      A.tracked f ∧ (A.Active (g.keptDeps (some (.leaf f))) → s.holds I f))
    (untracked : ∀ f, (f, false) ∈ assertions → A.Active none → s.holds I f) :
    (assertAll g assertions).Ensures s (Entered Γ I A s g assertions) := by
  induction assertions generalizing g s with
  | nil => exact Terms.ensures_pure ⟨.refl g, known, fun satisfied => ⟨satisfied, nofun⟩⟩
  | cons a rest tail =>
    obtain ⟨f, marked⟩ := a
    obtain ⟨⟨sorted, bool⟩, others⟩ := List.forall_mem_cons.mp posed
    obtain ⟨p, bit⟩ := Store.Formula.exists_bit sorted bool I
    have later (h : Goal) (now : Store) (grown : s.Extends now)
        (result : g.Alike h ∧ h.Justified (I.reading Γ) A now ∧
          (h.Satisfied (I.reading Γ) now → g.Satisfied (I.reading Γ) now ∧ p = true)) :
        (assertAll h rest).Ensures now (Entered Γ I A s g ((f, marked) :: rest)) := by
      obtain ⟨alike, justified, satisfied⟩ := result
      have same {a : TermId × Bool} (member : a ∈ rest) : now.holds I a.1 ↔ s.holds I a.1 := by
        rw [Store.holds, grown.value_eq I (others _ member).1.inside, Store.holds]
      apply (tail justified (fun a member => ⟨(others a member).1.mono grown,
        (grown.sortOf_eq (others a member).1.inside).trans (others a member).2⟩) (fun f member => ?_)
        fun f member active => (same member).mpr
          (untracked f (List.mem_cons_of_mem _ member) active)).imp
      · rintro g' after more ⟨alike', justified', satisfied'⟩
        refine ⟨alike.trans alike', justified', fun all => ?_⟩
        obtain ⟨first, others⟩ := satisfied' all
        obtain ⟨start, true⟩ := satisfied (justified.satisfied_of_extends more first)
        exact ⟨start.mono more, List.forall_mem_cons.mpr
          ⟨bit.holds_iff.mpr true, fun a member => (same member).mp (others a member)⟩⟩
      · obtain ⟨there, holds⟩ := tracked f (List.mem_cons_of_mem _ member)
        exact ⟨there, fun active => (same member).mpr (holds (alike.keptDeps_eq _ ▸ active))⟩
    have entered (now : Store) (grown : s.Extends now) (proof : Option Proof)
        (deps : Option DependencySet) (covered : Covered A.tracked (g.keptDeps deps))
        (holds : A.Active (g.keptDeps deps) → s.holds I f) :
        (g.assertEntry ⟨f, proof, deps⟩).Ensures now fun g' after =>
          g.Alike g' ∧ g'.Justified (I.reading Γ) A after ∧
            (g'.Satisfied (I.reading Γ) after → g.Satisfied (I.reading Γ) after ∧ p = true) := by
      have value : ((I.reading Γ).Bit now f p) := Store.Denotes.mono bit grown
      exact Goal.assertEntry_justified (e := ⟨f, proof, deps⟩) (known.mono grown) value covered
        fun active => bit.holds_iff.mp (holds active)
    unfold assertAll
    cases marked with
    | true =>
      obtain ⟨there, holds⟩ := tracked f (List.mem_cons_self ..)
      apply Terms.ensures_bind ?_ later
      unfold Goal.track
      apply Terms.ensures_bind_of_all
      intro proof now grown
      refine entered now grown proof _ ?_ ?_
      · rw [Goal.keptDeps_keptDeps, Goal.keptDeps]
        split
        · exact (DependencySet.covered_leaf f).mpr there
        · exact DependencySet.covered_none
      · rw [Goal.keptDeps_keptDeps]
        exact holds
    | false =>
      apply Terms.ensures_bind ?_ later
      unfold Goal.assert
      apply Terms.ensures_bind_of_all
      intro proof now grown
      refine entered now grown proof none ?_ fun active => ?_
      · rw [Goal.keptDeps_none]
        exact DependencySet.covered_none
      · rw [Goal.keptDeps_none] at active
        exact untracked f (List.mem_cons_self ..) active

/-- Unsatisfiable is answered on a single refuted subgoal only. -/
theorem verdict_ensures (post : Answer → Store → Prop) (refutes : ∀ g, r.goals = [g] →
    g.inconsistent = true → (refuted config r g).Ensures s fun found after =>
      found.1 = .unsat → post found.2 after) :
    (verdict config r).Ensures s fun found after => found.1 = .unsat → post found.2 after := by
  have other : (satisfied config r).Ensures s fun found after =>
      found.1 = .unsat → post found.2 after := by
    unfold satisfied
    split
    · apply Terms.ensures_bind_of_all
      rintro ⟨outcome, model⟩ now _
      cases outcome <;> exact Terms.ensures_pure (by simp [unknown])
    · exact Terms.ensures_pure (by simp)
  unfold verdict
  split
  · exact other
  · next g only =>
    split
    · exact other
    · split
      · next inconsistent => exact refutes g only inconsistent
      · exact Terms.ensures_pure (by simp [unknown])
  · exact Terms.ensures_pure (by simp [unknown])

/-- The core of a refuted goal. -/
theorem refuted_core : (refuted config r g).Ensures s fun found _ => found.1 = .unsat →
    found.2.core =
      ((DependencySet.join r.core (g.entries.head?.bind (·.deps))).map (·.members)).getD [] := by
  unfold refuted
  apply Terms.ensures_bind_of_all
  intro outcome now _
  cases outcome with
  | error e => exact Terms.ensures_pure (by simp [unknown])
  | ok proof => exact Terms.ensures_pure fun _ => rfl

/-- The core of an answer under one assignment. -/
theorem check_ensures (built : Tactic.Built False v.tactic) (cores : v.config.cores = true)
    (posed : ∀ a ∈ v.assertions, s.WellSorted Γ a.1 ∧ s.sortOf a.1 = .bool) (I : Assignment) :
    v.check.Ensures s fun found _ => found.1 = .unsat →
      (∀ f ∈ found.2.answer.core, (f, true) ∈ v.assertions) ∧
      ¬((∀ f, (f, false) ∈ v.assertions → s.holds I f) ∧
        ∀ f ∈ found.2.answer.core, s.holds I f) := by
  let A : Assumptions := .some (fun f => (f, true) ∈ v.assertions) (s.holds I)
  unfold check
  cases made : Goal.new v.config.models v.config.proofs v.config.cores with
  | error e => exact Terms.ensures_pure (by simp)
  | ok empty =>
    have start (B : Assumptions) : empty.Justified (I.reading Γ) B s ∧ empty.cores = true := by
      unfold Goal.new at made
      split at made
      · cases made
      · obtain rfl := Except.ok.inj made
        exact ⟨.of_satisfied_goal rfl, cores⟩
    have kept (f : TermId) : empty.keptDeps (some (.leaf f)) = some (.leaf f) := by
      rw [Goal.keptDeps, if_pos (start A).2]
    have readable := assertAll_ensures (A := A.idle) (start A.idle).1 posed
      (fun f member => ⟨member, False.elim⟩) fun f _ active => False.elim active
    have justified := Terms.ensures_forall
      fun untracked : ∀ f, (f, false) ∈ v.assertions → s.holds I f =>
        assertAll_ensures (A := A) (start A).1 posed (fun f member => ⟨member, fun active => by
          rw [kept] at active
          exact (DependencySet.covered_leaf f).mp active⟩) fun f member _ => untracked f member
    apply Terms.ensures_bind (readable.and justified)
    rintro goal middle grown ⟨⟨_, readable, _⟩, justified⟩
    have ran : (v.tactic.apply v.context goal).Ensures middle _ :=
      (Promise.apply_meets (Promise.justified_basics Γ I A) Tactic.depthLimit).1 built readable
    apply Terms.ensures_bind ran
    rintro ⟨outcome, tactic⟩ last more ⟨_, post⟩
    cases outcome with
    | error e => exact Terms.ensures_pure (by simp)
    | ok r =>
      have known := post r rfl
      apply Terms.ensures_bind (verdict_ensures (fun answer _ => ∃ g, r.goals = [g] ∧
        g.inconsistent = true ∧ answer.core =
          ((DependencySet.join r.core (g.entries.head?.bind (·.deps))).map (·.members)).getD [])
        fun g only inconsistent =>
          refuted_core.imp fun _ _ _ core unsat => ⟨g, only, inconsistent, core unsat⟩)
      rintro ⟨verdict, answer⟩ final further found
      apply Terms.ensures_pure
      rintro same
      obtain ⟨g, only, refuted, core⟩ := found same
      have there : g ∈ r.goals := by
        rw [only]
        exact List.mem_singleton_self g
      obtain ⟨_, plain⟩ := known.subgoals g there
      obtain ⟨e, single, _⟩ := plain.refuted refuted
      -- The core is what the formula of the only subgoal depends on.
      have used : answer.core = (e.deps.map (·.members)).getD [] := by
        rw [core, known.core, single]
        rfl
      have covered (P : TermId → Prop) : Covered P e.deps ↔ ∀ f ∈ answer.core, P f := by
        rw [used]
        cases e.deps with
        | none => simp
        | some deps => simp [Covered]
      refine ⟨fun f member => ?_, ?_⟩
      · obtain ⟨_, _, tracked, _⟩ := plain.entries e (by
          rw [single]
          exact List.mem_singleton_self e)
        exact (covered _).mp tracked f member
      · rintro ⟨untracked, holds⟩
        obtain ⟨h, member, refutable⟩ := known.some ((justified untracked).2.1.mono more)
        rw [only] at member
        obtain rfl := List.mem_singleton.mp member
        refine refutable.not_active refuted ?_
        rw [Goal.allDeps, single]
        exact (DependencySet.covered_join _ _).mpr
          ⟨DependencySet.covered_none, (covered (s.holds I)).mpr holds⟩

/-- The core of unsatisfiable assertions: it has only tracked ones, and these cannot hold together
with the untracked ones. -/
theorem core_refutes {v' : Solver} (built : Tactic.Built False v.tactic)
    (cores : v.config.cores = true)
    (posed : ∀ a ∈ v.assertions, s.WellSorted .full a.1 ∧ s.sortOf a.1 = .bool)
    (run : v.check.run s = ((.unsat, v'), after)) :
    (∀ f ∈ v'.answer.core, (f, true) ∈ v.assertions) ∧
      ∀ I : Assignment, ¬((∀ f, (f, false) ∈ v.assertions → s.holds I f) ∧
        ∀ f ∈ v'.answer.core, s.holds I f) := by
  have found (I : Assignment) := check_ensures built cores posed I
  unfold Terms.Ensures at found
  rw [run] at found
  exact ⟨(found default rfl).1, fun I => (found I rfl).2⟩

section Case

variable {p f : TermId} {name : String}

/-- A constant is its only conjunct. -/
theorem flatten_var (view : s.view p = (.var name, [])) :
    (Goal.flatten p none).run s = ([(p, none)], s) := by
  have whole : (Goal.split? (p, none)).run s = (none, s) := by
    unfold Goal.split?
    simp only [Terms.run_bind, Terms.run_read, view, Terms.run_pure]
  simp [Goal.flatten, Goal.conjunctsOnto, whole]

/-- A conjunction of a constant with `false` has these conjuncts. -/
theorem flatten_and (view : s.view f = (.and, [p, Store.falseId]))
    (constant : s.view p = (.var name, [])) :
    (Goal.flatten f none).run s = ([(p, none), (Store.falseId, none)], s) := by
  have below : p < f := Store.lt_of_mem_args (s := s) (by
    rw [show s.args f = [p, Store.falseId] from congrArg Prod.snd view]
    exact List.mem_cons_self ..)
  obtain ⟨k, rfl⟩ := Nat.exists_eq_succ_of_ne_zero (Nat.ne_zero_of_lt below)
  have parts : (Goal.split? (k + 1, none)).run s =
      (some [(p, none), (Store.falseId, none)], s) := by
    unfold Goal.split?
    simp [view, List.mapM_cons, Goal.derive]
  have first : (Goal.split? (p, none)).run s = (none, s) := by
    unfold Goal.split?
    simp only [Terms.run_bind, Terms.run_read, constant, Terms.run_pure]
  have second : (Goal.split? (Store.falseId, none)).run s = (none, s) := by
    unfold Goal.split?
    simp only [Terms.run_bind, Terms.run_read, Terms.run_pure, Store.view, s.node_falseId.2]
  unfold Goal.flatten Goal.conjunctsOnto
  simp [parts, Goal.conjunctsOnto, first, second, List.foldlM_cons]

/-- A tracked constant and a tracked conjunction of it with `false`. -/
def hopeless (p f : TermId) : Solver where
  tactic := .skip
  config := { cores := true }
  assertions := [(p, true), (f, true)]

/-- The core has the conjunction but not the constant. -/
theorem check_hopeless (constant : s.node p = ⟨.var name, [], .bool⟩)
    (conjunction : s.node f = ⟨.and, [p, Store.falseId], .bool⟩) :
    (hopeless p f).check.run s =
      ((.unsat, { hopeless p f with answer := { core := [f] } }), s) := by
  have shape : s.view p = (.var name, []) := by rw [Store.view, constant]
  have different : p ≠ Store.falseId := by
    rintro rfl
    rw [s.node_falseId.2] at constant
    cases constant
  have asserted (g : Goal) (fresh : g.entries = []) (consistent : g.inconsistent = false)
      (unproved : g.proofs = false) : (assertAll g [(p, true), (f, true)]).run s =
        (g.refuted none (g.keptDeps (some (.leaf f))), s) := by
    simp [assertAll, Goal.track, Goal.assertEntry, Goal.inputProof, Goal.keptProof, Goal.entriesOf,
      Goal.falsePart?, Goal.keptDeps, Goal.refuted, flatten_var shape,
      flatten_and (show s.view f = _ by rw [Store.view, conjunction]) shape, different, fresh,
      consistent, unproved]
  have made : Goal.new true false true = .ok { models := true, proofs := false, cores := true } := rfl
  unfold check hopeless
  dsimp only
  rw [made]
  dsimp only
  rw [Terms.run_bind, asserted _ rfl rfl rfl]
  rfl

/-- The core of two assertions of which one alone cannot hold. -/
theorem core_refutes_case : ∃ (s : Store) (p f : TermId) (v' : Solver),
    s.op p = .var "p" ∧ s.view f = (.and, [p, Store.falseId]) ∧
    (hopeless p f).check.run s = ((.unsat, v'), s) ∧
    ∀ I : Assignment, ¬((∀ g, (g, false) ∈ (hopeless p f).assertions → s.holds I g) ∧
      ∀ g ∈ v'.answer.core, s.holds I g) := by
  obtain ⟨p, s, inside, constant⟩ : ∃ (p : TermId) (s : Store),
      p < s.size ∧ s.node p = ⟨.var "p", [], .bool⟩ :=
    ⟨_, _, Terms.mkVar_node (s := .initial) "p" .bool⟩
  have arguments : ∀ a ∈ [p, Store.falseId], a < s.size := by simp [inside, s.node_falseId.1]
  have grown := (Terms.mkApp .and [p, Store.falseId]).grows s
  have made : (Terms.mkApp .and [p, Store.falseId]).Ensures s _ := Terms.mkApp_node arguments
  obtain ⟨there, conjunction⟩ := made
  generalize ((Terms.mkApp .and [p, Store.falseId]).run s).1 = f at *
  generalize ((Terms.mkApp .and [p, Store.falseId]).run s).2 = after at *
  replace constant := (grown.node_eq inside).trans constant
  have sort : s.inferSort .and [p, Store.falseId] = .bool := rfl
  rw [sort] at conjunction
  have run := check_hopeless constant conjunction
  refine ⟨after, p, f, _, ?_, ?_, run, (core_refutes .skip rfl ?_ run).2⟩
  · rw [Store.op, constant]
  · rw [Store.view, conjunction]
  · have first : after.WellSorted .full p ∧ after.sortOf p = .bool := by
      refine ⟨.intro (grown.lt_size inside) ?_ ?_, by rw [Store.sortOf, constant]⟩
      · rw [Store.op, Store.args, Store.sortOf, constant]
        exact ⟨trivial, .inl rfl⟩
      · simp [Store.args, constant]
    have second : after.Formula .full default Store.falseId False := Terms.formula_falseId after
    simp only [hopeless, List.forall_mem_cons, List.not_mem_nil, false_implies, implies_true,
      and_true]
    refine ⟨first, .intro there ?_ ?_, by rw [Store.sortOf, conjunction]⟩
    · rw [Store.op, Store.args, Store.sortOf, conjunction]
      refine ⟨rfl, by simp, ?_⟩
      simpa using ⟨first.2, second.sort_eq⟩
    · simpa [Store.args, conjunction] using ⟨first.1, second.sorted⟩

end Case

section Refutation

variable {given assumed : TermId → Prop} {root : Goal}

/-- The goal of given assertions keeps proofs. -/
theorem assertAll_certified (known : g.Certified s given assumed)
    (posed : ∀ a ∈ assertions, a.1 < s.size ∧ given a.1) :
    (assertAll g assertions).Ensures s fun g' after => g'.Certified after given assumed := by
  induction assertions generalizing g s with
  | nil => exact Terms.ensures_pure known
  | cons a rest later =>
    obtain ⟨f, tracked⟩ := a
    obtain ⟨⟨inside, posed⟩, others⟩ := List.forall_mem_cons.mp posed
    have step : (Proof.asserted f).Ensures s fun p after =>
        Proved after given assumed f (some p) :=
      Proved.of_make inside rfl (fun _ => posed) (by simp) (by simp) (List.forall_mem_nil _)
    have input : (g.inputProof f).Ensures s fun proof after =>
        Proved after given assumed f proof := by
      unfold Goal.inputProof
      rw [if_pos known.keeps]
      exact Terms.ensures_bind step fun p after _ proved => Terms.ensures_pure proved
    have entered (deps : Option DependencySet) : (do
        g.assertEntry ⟨f, ← g.inputProof f, deps⟩ : Terms Goal).Ensures s fun g' after =>
          g'.Certified after given assumed :=
      Terms.ensures_bind input fun proof middle grown proved =>
        Goal.assertEntry_certified (e := ⟨f, proof, deps⟩) (known.mono grown) proved
    have finish (g' : Goal) (middle : Store) (grown : s.Extends middle)
        (certified : g'.Certified middle given assumed) : (assertAll g' rest).Ensures middle
          fun g' after => g'.Certified after given assumed :=
      later certified fun a member => ⟨grown.lt_size (others a member).1, (others a member).2⟩
    unfold assertAll
    cases tracked with
    | true => exact Terms.ensures_bind (entered _) finish
    | false => exact Terms.ensures_bind (entered none) finish

/-- The proof of a refuted goal. -/
theorem refuted_refutes (proofs : config.proofs = true) (known : r.Reduces given root s)
    (certified : root.Certified s given assumed) (only : r.goals = [g])
    (inconsistent : g.inconsistent = true) :
    (refuted config r g).Ensures s fun found after => found.1 = .unsat →
      ∃ p, found.2.proof = some p ∧ p.Refutes after given assumed := by
  obtain ⟨cases, split, combines⟩ := known.combines assumed certified
  rw [only] at split
  obtain ⟨case, _, here, none, rfl⟩ := List.forall₂_cons_left_iff.mp split
  obtain rfl := List.forall₂_nil_left_iff.mp none
  obtain ⟨p, found, refutes⟩ := here.refutation inconsistent
  have combined := combines s (.refl s) [p] (.cons refutes .nil)
  have made : (refutation config r g).Ensures s fun outcome after => ∀ proof,
      outcome = .ok proof → ∃ p, proof = some p ∧ p.Refutes after given assumed := by
    unfold refutation
    rw [found]
    dsimp only
    rw [proofs, if_neg (by simp)]
    split
    · next identity =>
      rw [ProofConverter.eq_identity identity] at combined
      apply Terms.ensures_pure
      rintro proof ⟨⟩
      exact ⟨p, rfl, combined p rfl⟩
    · apply Terms.ensures_bind combined
      intro outcome after _ refutes
      apply Terms.ensures_pure
      intro proof same
      cases outcome with
      | error e => cases same
      | ok q =>
        obtain rfl := Except.ok.inj same
        exact ⟨q, rfl, refutes q rfl⟩
  unfold refuted
  apply Terms.ensures_bind made
  intro outcome after _ proved
  cases outcome with
  | error e => exact Terms.ensures_pure (by simp [unknown])
  | ok proof => exact Terms.ensures_pure fun _ => proved proof rfl

/-- A solver that is to prove that `false` does not hold. -/
def absurdity : Solver where
  tactic := .skip
  config := { proofs := true }
  assertions := [(Store.falseId, false)]

end Refutation

end Stratagem.Solver
