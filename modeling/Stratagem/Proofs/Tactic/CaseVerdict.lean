import Stratagem.Proofs.Goal.Operation
import Stratagem.Proofs.Tactic.Enumeration
import Stratagem.Solver

/-!
# Verdicts by case splits

What a case split decides about a goal whose disjunctions may have any number of members. A refuted
result refutes the goal. A satisfied one satisfies it, unless the disjunction that is split is empty:
such a clause is false, but it has no cases, and no subgoal is left. A solver that runs case splits
answers accordingly.
-/
namespace Stratagem

open Store (Extends)

variable {s after : Store} {g : Goal} {largest : Bool} {context : Context}

namespace TacticResult

variable {r : TacticResult}

/-- A result that satisfies its goal has no subgoal or a satisfied one only. -/
theorem isDecidedSat_cases (decided : r.isDecidedSat = true) :
    r.goals = [] ∨ ∃ g, r.goals = [g] ∧ g.isDecidedSat = true := by
  unfold isDecidedSat at decided
  split at decided
  · next none => exact .inl none
  · next g only => exact .inr ⟨g, only, decided⟩
  · cases decided

/-- A result that refutes its goal has a single subgoal, which is refuted. -/
theorem isDecidedUnsat_cases (decided : r.isDecidedUnsat = true) :
    ∃ g, r.goals = [g] ∧ g.inconsistent = true := by
  unfold isDecidedUnsat at decided
  split at decided
  · next g only => exact ⟨g, only, decided⟩
  · cases decided

end TacticResult

namespace CaseSplit

/-- The verdicts of a case split: one that is refuted refutes the goal, and one that is satisfied
satisfies it unless the clause that is split is empty. -/
theorem run_verdict (lawful : g.Lawful) (inside : ∀ f ∈ g.formulas, f < s.size) :
    (run largest context g).Ensures () s (fun r _ _ => ∀ I : Interpretation,
      (r.isDecidedUnsat = true → ¬I.HoldAll s g.formulas) ∧
        (r.isDecidedSat = true → (∃ slot, select? largest s g = some (slot, [])) ∨
          I.HoldAll s g.formulas)) fun _ _ _ => True := by
  refine Attempt.ensures_forall fun I => ?_
  have bits : ∀ e ∈ g.entries, ∃ p, I.reading.Bit s e.formula p := fun e member =>
    I.exists_bit (inside _ (List.mem_map_of_mem member))
  have readable : g.Justified I.reading .none s := by
    refine ⟨lawful, fun e member => ?_⟩
    obtain ⟨p, bit⟩ := bits e member
    exact ⟨p, bit, fun _ _ _ _ => trivial, False.elim⟩
  have satisfied_iff : g.Satisfied I.reading s ↔ I.HoldAll s g.formulas := by
    unfold Goal.Satisfied Interpretation.HoldAll Goal.formulas
    rw [List.forall_mem_map]
    exact forall₂_congr fun e member =>
      Interpretation.reading_bit_true (inside _ (List.mem_map_of_mem member))
  have follows : (run largest context g).Ensures () s _ fun _ _ _ => True := run_cases readable
  have justified : (run largest context g).Ensures () s _ fun _ _ _ => True :=
    Attempt.ensures_forall fun holds : I.HoldAll s g.formulas =>
      run_cases (readable.of_satisfied (satisfied_iff.mpr holds))
  refine (follows.and justified).imp (fun r _ after grown known => ?_) fun _ _ _ _ _ => trivial
  obtain ⟨⟨_, _, follows, none, _⟩, justified⟩ := known
  constructor
  · intro refuted holds
    obtain ⟨g', only, inconsistent⟩ := r.isDecidedUnsat_cases refuted
    obtain ⟨_, _, _, _, some⟩ := justified holds
    obtain ⟨h, member, known⟩ := some (by rw [only]; exact List.cons_ne_nil _ _)
    rw [only] at member
    obtain rfl := List.mem_singleton.mp member
    exact known.not_satisfied inconsistent known.satisfied
  · intro satisfied
    obtain empty | ⟨g', only, satisfied⟩ := r.isDecidedSat_cases satisfied
    · exact .inl (none empty)
    · have known := follows g' (by rw [only]; exact List.mem_singleton_self g')
      have nothing : g'.Satisfied I.reading after := by
        unfold Goal.Satisfied
        rw [(Goal.isDecidedSat_iff.mp satisfied).1]
        exact List.forall_mem_nil _
      exact .inr (satisfied_iff.mp
        (readable.satisfied_of_extends grown (known.satisfied nothing)))

end CaseSplit

section Pieces

variable {f root a : TermId} {bases : List TermId}

/-- A formula is a piece of another one: it occurs there, or is the negation of what does. -/
structure Store.Piece (s : Store) (root f : TermId) : Prop where
  /-- The formula is in the store. -/
  inside : f < s.size
  /-- Where it comes from. -/
  origin : s.Occurs f root ∨ ∃ a, s.view f = (.not, [a]) ∧ s.Occurs a root

namespace Store.Piece

/-- Pieces are pieces when the store grows. -/
theorem mono (known : s.Piece root f) (there : root < s.size) (grown : s.Extends after) :
    after.Piece root f where
  inside := grown.lt_size known.inside
  origin := by
    obtain occurs | ⟨a, view, occurs⟩ := known.origin
    · exact .inl (occurs.mono grown there)
    · exact .inr ⟨a, (grown.view_eq known.inside).trans view, occurs.mono grown there⟩

/-- An argument of what is no negation occurs where the piece does. -/
theorem arg {op : Op} {args : List TermId} (known : s.Piece root f) (view : s.view f = (op, args))
    (other : op ≠ .not) (member : a ∈ args) : s.Occurs a root := by
  obtain ⟨rfl, rfl⟩ := Store.view_eq_iff.mp view
  obtain occurs | ⟨b, negation, _⟩ := known.origin
  · exact occurs.arg member
  · exact absurd (Store.view_eq_iff.mp negation).1.symm (by simpa using Ne.symm other)

/-- What a negation among the pieces denies occurs in the formula. -/
theorem denied (known : s.Piece root f) (view : s.view f = (.not, [a])) : s.Occurs a root := by
  obtain occurs | ⟨b, negation, occurs⟩ := known.origin
  · refine occurs.arg ?_
    rw [(Store.view_eq_iff.mp view).2]
    exact List.mem_singleton_self a
  · obtain rfl : a = b := by simpa [view] using negation
    exact occurs

end Store.Piece

namespace Goal

variable {e : Entry} {proof : Option Proof}

/-- The parts of a piece are pieces. -/
theorem split?_pieces {part : Part} (there : root < s.size) (known : s.Piece root part.1) :
    (split? part).Ensures s fun found after =>
      ∀ parts, found = some parts → ∀ part ∈ parts, after.Piece root part.1 := by
  obtain ⟨f, proof⟩ := part
  have derived {rule : ProofRule} {members : List TermId} {now : Store} (grown : s.Extends now)
      (each : ∀ a ∈ members, now.Piece root a) :
      (members.mapM (derive rule proof)).Ensures now fun parts after =>
        ∀ part ∈ parts, after.Piece root part.1 := by
    refine (mapM_derive_formulas members).imp fun parts after more same part member => ?_
    refine (each part.1 ?_).mono (grown.lt_size there) more
    rw [← same]
    exact List.mem_map_of_mem member
  unfold split?
  refine Terms.ensures_read_bind ?_
  dsimp only
  split
  · exact Terms.ensures_pure (by rintro _ ⟨⟩; exact List.forall_mem_nil _)
  · next members view =>
    have each : ∀ a ∈ members, s.Piece root a := fun a member =>
      have occurs := known.arg view (by simp) member
      ⟨occurs.le.trans_lt there, .inl occurs⟩
    refine Terms.ensures_bind (derived (.refl s) each) fun parts _ _ pieces => ?_
    exact Terms.ensures_pure (by rintro _ ⟨⟩; exact pieces)
  · next a view =>
    have occurs := known.denied view
    split
    · exact Terms.ensures_pure (by rintro _ ⟨⟩; exact List.forall_mem_nil _)
    · next members inner =>
      have below : ∀ b ∈ members, s.Occurs b root := fun b member =>
        occurs.arg (by rwa [(Store.view_eq_iff.mp inner).2])
      refine Terms.ensures_bind (negations_ensures fun b member =>
        (below b member).le.trans_lt there) fun negated middle grown built => ?_
      have each : ∀ n ∈ negated, middle.Piece root n := by
        intro n member
        obtain ⟨b, inside, found⟩ := exists_of_forall₂ built.flip member
        exact ⟨found.1, .inr ⟨b, found.2, (below b inside).mono grown there⟩⟩
      refine Terms.ensures_bind (derived grown each) fun parts _ _ pieces => ?_
      exact Terms.ensures_pure (by rintro _ ⟨⟩; exact pieces)
    · exact Terms.ensures_pure nofun
  · exact Terms.ensures_pure nofun

/-- The conjuncts of a formula are pieces of it. -/
theorem flatten_pieces (there : f < s.size) :
    (flatten f proof).Ensures s fun parts after => ∀ part ∈ parts, after.Piece f part.1 := by
  have conjuncts : (conjunctsOnto (f + 1) [] (f, proof)).Ensures s fun parts after =>
      f < after.size ∧ ∀ part ∈ [] ++ parts, after.Piece f part.1 := by
    refine conjunctsOnto_induct (P := fun now pending conjuncts =>
      f < now.size ∧ ∀ part ∈ pending ++ conjuncts, now.Piece f part.1) ?_ ?_ (f + 1)
      ⟨there, by simpa using ⟨there, .inl .here⟩⟩
    · rintro now part pending conjuncts ⟨there, pieces⟩
      exact ⟨there, fun d member => pieces d (List.perm_middle.mem_iff.mp member)⟩
    · rintro now part pending conjuncts ⟨there, pieces⟩
      obtain ⟨first, others⟩ := List.forall_mem_cons.mp pieces
      refine (split?_pieces there first).imp fun outcome after grown parts => ?_
      have later : ∀ d ∈ pending ++ conjuncts, after.Piece f d.1 := fun d member =>
        (others d member).mono there grown
      refine ⟨fun _ => ⟨grown.lt_size there, List.forall_mem_cons.mpr
        ⟨first.mono there grown, later⟩⟩, fun found same => ⟨grown.lt_size there, ?_⟩⟩
      rw [List.append_assoc]
      exact List.forall_mem_append.mpr ⟨parts found same, later⟩
  refine Terms.ensures_bind conjuncts fun parts after _ known => Terms.ensures_pure ?_
  exact fun part member => known.2 part (List.mem_reverse.mp member)

/-- A formula that asserting one adds is a piece of it, or the literal `false`. -/
theorem assertEntry_pieces (there : e.formula < s.size) :
    (g.assertEntry e).Ensures s fun g' after => ∀ f ∈ g'.formulas,
      f ∈ g.formulas ∨ f = Store.falseId ∨ after.Piece e.formula f := by
  refine (assertEntry_ensures (flatten_pieces there)).imp fun g' after _ known => ?_
  obtain ⟨_, rfl⟩ | ⟨_, parts, pieces, outcome⟩ := known
  · exact fun f member => .inl member
  · obtain ⟨_, _, _, rfl⟩ | ⟨_, rfl⟩ := outcome
    · exact fun f member => .inr (.inl (List.mem_singleton.mp member))
    · intro f member
      rw [formulas, List.map_append] at member
      refine (List.mem_append.mp member).imp id fun added => ?_
      obtain ⟨d, entered, rfl⟩ := List.mem_map.mp added
      obtain ⟨part, taken, rfl⟩ := List.mem_map.mp entered
      exact .inr (pieces part taken)

end Goal

end Pieces

namespace Solver

variable {assertions : List (TermId × Bool)} {v v' : Solver} {verdict : Verdict}

/-- What holds of the goal that assertions are entered in: it says what the goal before and the
assertions say, and its formulas are those of the goal before, pieces of assertions or `false`. -/
structure Enters (s : Store) (g : Goal) (assertions : List (TermId × Bool)) (g' : Goal)
    (after : Store) : Prop where
  /-- The goal is in normal form. -/
  normal : g'.WellFormed after
  /-- What the goal says. -/
  means : ∀ I : Interpretation, I.HoldAll after g'.formulas ↔
    I.HoldAll s g.formulas ∧ I.HoldAll s (assertions.map Prod.fst)
  /-- What the formulas are. -/
  pieces : ∀ f ∈ g'.formulas, f ∈ g.formulas ∨ f = Store.falseId ∨
    ∃ a ∈ assertions, after.Piece a.1 f

/-- Entering assertions in a goal. -/
theorem assertAll_enters (known : g.WellFormed s) (inside : ∀ a ∈ assertions, a.1 < s.size) :
    (assertAll g assertions).Ensures s (Enters s g assertions) := by
  induction assertions generalizing g s with
  | nil => exact Terms.ensures_pure ⟨known, fun I => (and_iff_left nofun).symm, fun f => .inl⟩
  | cons a rest tail =>
    obtain ⟨f, tracked⟩ := a
    obtain ⟨here, others⟩ := List.forall_mem_cons.mp inside
    -- One assertion is entered with its proof and its dependencies.
    have step (deps : Option DependencySet) :
        (g.inputProof f >>= fun proof => g.assertEntry ⟨f, proof, deps⟩).Ensures s
          (Enters s g [(f, tracked)]) := by
      refine Terms.ensures_bind Goal.inputProof_ensures fun proof middle grown made => ?_
      have concluded : Entry.Concluded middle ⟨f, proof, deps⟩ := ⟨grown.lt_size here, made.2⟩
      have later := known.mono grown
      refine ((Goal.assertEntry_wellFormed later concluded).and
        ((Terms.ensures_forall fun I => Goal.assertEntry_holdAll later concluded I).and
          (Goal.assertEntry_pieces concluded.inside))).imp fun g' after _ found => ?_
      refine ⟨found.1, fun I => (found.2.1 I).trans ?_, fun f' member => ?_⟩
      · rw [I.holdAll_iff grown known.inside, grown.tree_eq here]
        simp [Interpretation.HoldAll]
      · exact (found.2.2 f' member).imp_right (.imp_right fun piece =>
          ⟨_, List.mem_singleton_self _, piece⟩)
    have finish (h : Goal) (middle : Store) (grown : s.Extends middle)
        (entered : Enters s g [(f, tracked)] h middle) :
        (assertAll h rest).Ensures middle (Enters s g ((f, tracked) :: rest)) := by
      refine (tail entered.normal fun a member => grown.lt_size (others a member)).imp
        fun g' after more result => ⟨result.normal, fun I => ?_, fun f' member => ?_⟩
      · have below : ∀ t ∈ rest.map Prod.fst, t < s.size := List.forall_mem_map.mpr others
        rw [result.means I, entered.means I, I.holdAll_iff grown below, and_assoc]
        simp [Interpretation.HoldAll]
      · obtain early | literal | ⟨a, member, piece⟩ := result.pieces f' member
        · obtain old | literal | ⟨a, member, piece⟩ := entered.pieces f' early
          · exact .inl old
          · exact .inr (.inl literal)
          · obtain rfl := List.mem_singleton.mp member
            exact .inr (.inr ⟨_, List.mem_cons_self .., piece.mono (grown.lt_size here) more⟩)
        · exact .inr (.inl literal)
        · exact .inr (.inr ⟨a, List.mem_cons_of_mem _ member, piece⟩)
    unfold assertAll
    cases tracked with
    | true => exact Terms.ensures_bind (step _) finish
    | false => exact Terms.ensures_bind (step none) finish

/-- Satisfiable is answered on a result that satisfies its goal only, and unsatisfiable on one that
refutes it. -/
theorem verdict_decided {config : SolverConfig} {r : TacticResult} :
    (Solver.verdict config r).Ensures s fun found _ =>
      (found.1 = .sat → r.isDecidedSat = true) ∧ (found.1 = .unsat → r.isDecidedUnsat = true) := by
  have satisfied (decided : r.isDecidedSat = true) : (satisfied config r).Ensures s fun found _ =>
      (found.1 = .sat → r.isDecidedSat = true) ∧ (found.1 = .unsat → r.isDecidedUnsat = true) := by
    unfold satisfied
    split
    · refine Terms.ensures_bind_of_all ?_
      rintro ⟨outcome, model⟩ now _
      cases outcome <;> exact Terms.ensures_pure (by simp [unknown, decided])
    · exact Terms.ensures_pure (by simp [decided])
  unfold Solver.verdict
  split
  · next none => exact satisfied (by rw [TacticResult.isDecidedSat, none])
  · next g only =>
    split
    · next decided => exact satisfied (by rw [TacticResult.isDecidedSat, only]; exact decided)
    · split
      · next refuted =>
        have decided : r.isDecidedUnsat = true := by
          rw [TacticResult.isDecidedUnsat, only]
          exact refuted
        unfold Solver.refuted
        refine Terms.ensures_bind_of_all fun outcome now _ => ?_
        cases outcome <;> exact Terms.ensures_pure (by simp [unknown, decided])
      · exact Terms.ensures_pure (by simp [unknown])
  · exact Terms.ensures_pure (by simp [unknown])

/-- The answers of a solver that runs case splits, unless an assertion has an empty disjunction in
it. -/
theorem check_verdict (splits : v.tactic = .splitClause largest)
    (inside : ∀ a ∈ v.assertions, a.1 < s.size) :
    v.check.Ensures s fun found _ => ∀ I : Interpretation,
      (found.1 = .unsat → ¬I.HoldAll s (v.assertions.map Prod.fst)) ∧
        (found.1 = .sat → (∃ a ∈ v.assertions, ∃ u, s.Occurs u a.1 ∧ s.view u = (.or, [])) ∨
          I.HoldAll s (v.assertions.map Prod.fst)) := by
  unfold check
  cases made : Goal.new v.config.models v.config.proofs v.config.cores with
  | error e => exact Terms.ensures_pure (by simp)
  | ok empty =>
    have none : empty.formulas = [] := by
      unfold Goal.new at made
      split at made
      · cases made
      · rw [← Except.ok.inj made]
        rfl
    refine Terms.ensures_bind (assertAll_enters (.of_new made s) inside) ?_
    intro goal middle grown entered
    have meaning (I : Interpretation) :
        I.HoldAll middle goal.formulas ↔ I.HoldAll s (v.assertions.map Prod.fst) := by
      rw [entered.means I, none]
      exact and_iff_right nofun
    -- The clause that is split occurs in an assertion.
    have origin {slot : ℕ} (selected : CaseSplit.select? largest middle goal = some (slot, [])) :
        ∃ a ∈ v.assertions, ∃ u, s.Occurs u a.1 ∧ s.view u = (.or, []) := by
      obtain ⟨e, there, view⟩ := CaseSplit.select?_spec selected
      obtain old | literal | ⟨a, member, piece⟩ :=
        entered.pieces e.formula (List.mem_map_of_mem (List.mem_of_getElem? there))
      · rw [none] at old
        cases old
      · rw [literal, Store.view, middle.node_falseId.2] at view
        exact absurd view (by simp)
      · have there := inside a member
        obtain occurs | ⟨b, negation, _⟩ := piece.origin
        · have before := occurs.of_extends grown there
          exact ⟨a, member, e.formula, before,
            (grown.view_eq (before.le.trans_lt there)).symm.trans view⟩
        · exact absurd (view.symm.trans negation) (by simp)
    have ran : (v.tactic.apply v.context goal).Ensures middle fun found _ => ∀ r, found.1 = .ok r →
        ∀ I : Interpretation,
          (r.isDecidedUnsat = true → ¬I.HoldAll s (v.assertions.map Prod.fst)) ∧
            (r.isDecidedSat = true →
              (∃ a ∈ v.assertions, ∃ u, s.Occurs u a.1 ∧ s.view u = (.or, [])) ∨
                I.HoldAll s (v.assertions.map Prod.fst)) := by
      have split : (CaseSplit.run largest v.context goal).Ensures () middle _ _ :=
        CaseSplit.run_verdict entered.normal.lawful entered.normal.inside
      unfold Attempt.Ensures at split
      rw [splits, Tactic.apply, Tactic.depthLimit, Tactic.applyTo]
      refine Terms.ensures_bind split ?_
      rintro ⟨outcome, ⟨⟩⟩ last _ known
      refine Terms.ensures_pure fun r same I => ?_
      obtain rfl : outcome = .ok r := same
      rw [← meaning I]
      refine ⟨(known I).1, fun satisfied => ((known I).2 satisfied).imp_left ?_⟩
      rintro ⟨_, selected⟩
      exact origin selected
    refine Terms.ensures_bind ran ?_
    rintro ⟨outcome, tactic⟩ last _ known
    cases outcome with
    | error e => exact Terms.ensures_pure (by simp)
    | ok r =>
      refine Terms.ensures_bind verdict_decided ?_
      rintro ⟨verdict, answer⟩ final _ ⟨sat, unsat⟩
      exact Terms.ensures_pure fun I =>
        ⟨fun same => (known r rfl I).1 (unsat same), fun same => (known r rfl I).2 (sat same)⟩

end Solver

namespace CaseSplit

/-- A case split that satisfies or refutes its goal is right about it, whatever the numbers of
members of its disjunctions are, except that one of an empty disjunction leaves no cases and so
counts as satisfied; and a solver that runs case splits answers that its assertions are satisfiable
or unsatisfiable only if they are, unless an empty disjunction occurs in them. -/
theorem verdicts_correct (largest : Bool) (s : Store) :
    (∀ (context : Context) (g : Goal) (r : TacticResult) (after : Store), g.Lawful →
      (∀ f ∈ g.formulas, f < s.size) →
      ((run largest context g).runFrom ()).run s = ((.ok r, ()), after) →
      ∀ I : Interpretation, (r.isDecidedUnsat = true → ¬I.HoldAll s g.formulas) ∧
        ((∀ slot, select? largest s g ≠ some (slot, [])) → r.isDecidedSat = true →
          I.HoldAll s g.formulas)) ∧
      ∀ (v v' : Solver) (verdict : Verdict) (after : Store), v.tactic = .splitClause largest →
        (∀ a ∈ v.assertions, a.1 < s.size) → v.check.run s = ((verdict, v'), after) →
        ∀ I : Interpretation, (verdict = .unsat → ¬I.HoldAll s (v.assertions.map Prod.fst)) ∧
          ((∀ a ∈ v.assertions, ∀ u, s.Occurs u a.1 → s.view u ≠ (.or, [])) → verdict = .sat →
            I.HoldAll s (v.assertions.map Prod.fst)) := by
  constructor
  · intro context g r after lawful inside ran I
    have known := (run_verdict lawful inside).of_ok ran I
    refine ⟨known.1, fun filled satisfied => (known.2 satisfied).resolve_left ?_⟩
    rintro ⟨slot, selected⟩
    exact filled slot selected
  · intro v v' verdict after splits inside ran I
    have known := Solver.check_verdict splits inside
    unfold Terms.Ensures at known
    rw [ran] at known
    refine ⟨(known I).1, fun filled satisfied => ((known I).2 satisfied).resolve_left ?_⟩
    rintro ⟨a, member, u, occurs, view⟩
    exact filled a member u occurs view

section Case

variable {t : TermId}

/-- A goal that asks for a model, with one formula. -/
def plainGoal (t : TermId) : Goal :=
  { entries := [⟨t, none, none⟩], models := true, proofs := false, cores := false }

/-- A disjunction of `true` alone is split into a satisfied case. -/
theorem run_plainGoal (view : s.view t = (.or, [Store.trueId])) :
    ((run false .unbounded (plainGoal t)).runFrom ()).run s =
      ((.ok { goals := [(plainGoal t).cleared.deeper] }, ()), s) := by
  have selected : select? false s (plainGoal t) = some (0, [Store.trueId]) := by
    simp [select?, clauses, plainGoal, Goal.formulas, view]
  have asserted (base : Goal) : (base.assertEntry ⟨Store.trueId, none, none⟩).run s = (base, s) :=
    Goal.run_assertEntry_of_trueId rfl
  rw [run, Attempt.run_bind, Attempt.run_read]
  dsimp only
  rw [selected]
  simp [-bind_pure_comp, plainGoal, assertAll, cases, case, Attempt.run_bind, Attempt.run_build,
    Attempt.run_check_unbounded, Attempt.run_pure, Goal.cleared, Goal.deeper, asserted]

/-- The solver of one assertion. -/
def plainSolver (t : TermId) : Solver where
  tactic := .splitClause false
  assertions := [(t, false)]

/-- The solver finds that a disjunction of `true` alone is satisfiable. -/
theorem check_plainSolver (view : s.view t = (.or, [Store.trueId])) :
    (plainSolver t).check.run s =
      ((.sat, { plainSolver t with answer := { model := some {} } }), s) := by
  have different : t ≠ Store.falseId := by
    rintro rfl
    rw [Store.view, s.node_falseId.2] at view
    exact absurd view (by simp)
  have flattened : (Goal.flatten t none).run s = ([(t, none)], s) := by
    simp [Goal.flatten, Goal.conjunctsOnto, Goal.split?, view]
  have entered : (Solver.assertAll { models := true, proofs := false, cores := false }
      [(t, false)]).run s = (plainGoal t, s) := by
    simp [Solver.assertAll, Goal.assert, Goal.inputProof, Goal.assertEntry, Goal.keptProof,
      Goal.keptDeps, flattened, Goal.falsePart?, Goal.entriesOf, different, plainGoal]
  have applied : (Tactic.apply (.splitClause false) .unbounded (plainGoal t)).run s =
      ((.ok { goals := [(plainGoal t).cleared.deeper] }, .splitClause false), s) := by
    rw [Tactic.apply, Tactic.depthLimit, Tactic.applyTo, Terms.run_bind, run_plainGoal view]
    rfl
  have made : Goal.new true false false = .ok { models := true, proofs := false, cores := false } :=
    rfl
  unfold Solver.check plainSolver
  dsimp only
  rw [made]
  dsimp only
  rw [Terms.run_bind, entered]
  dsimp only
  rw [Terms.run_bind, show Solver.context _ = .unbounded from rfl, applied]
  rfl

/-- A disjunction of `true` alone is satisfiable, and a solver that runs case splits finds so. -/
theorem verdicts_correct_case : ∃ (s : Store) (t : TermId) (r : TacticResult) (v' : Solver),
    s.view t = (.or, [Store.trueId]) ∧
      ((run false .unbounded (plainGoal t)).runFrom ()).run s = ((.ok r, ()), s) ∧
      r.isDecidedSat = true ∧ (plainSolver t).check.run s = ((.sat, v'), s) ∧
      ∀ I : Interpretation, I.HoldAll s (plainGoal t).formulas ∧
        I.HoldAll s ((plainSolver t).assertions.map Prod.fst) := by
  obtain ⟨t, s, inside, node⟩ : ∃ (t : TermId) (s : Store), t < s.size ∧
      s.node t = ⟨.or, [Store.trueId], .bool⟩ :=
    ⟨_, _, Terms.mkApp_node (s := .initial) (by simpa using Store.initial.node_trueId.1)⟩
  have view : s.view t = (.or, [Store.trueId]) := by rw [Store.view, node]
  have ran := run_plainGoal view
  have checked := check_plainSolver view
  obtain ⟨goals, solvers⟩ := verdicts_correct false s
  have lawful : (plainGoal t).Lawful := ⟨by simp [plainGoal], by simp [plainGoal, Goal.keptDeps]⟩
  have selected : select? false s (plainGoal t) = some (0, [Store.trueId]) := by
    simp [select?, clauses, plainGoal, Goal.formulas, view]
  have filled : ∀ u, s.Occurs u t → s.view u ≠ (.or, []) := by
    intro u occurs
    obtain rfl | ⟨a, member, below⟩ := occurs.cases
    · rw [view]
      simp
    · rw [(Store.view_eq_iff.mp view).2] at member
      obtain rfl := List.mem_singleton.mp member
      obtain rfl | ⟨b, member, _⟩ := below.cases
      · rw [Store.view, s.node_trueId.2]
        simp
      · rw [Store.args, s.node_trueId.2] at member
        cases member
  refine ⟨s, t, _, _, view, ran, rfl, checked, fun I => ⟨?_, ?_⟩⟩
  · refine (goals .unbounded (plainGoal t) _ s lawful ?_ ran I).2 (fun slot => ?_) rfl
    · simpa [plainGoal, Goal.formulas] using inside
    · rw [selected]
      simp
  · refine (solvers (plainSolver t) _ .sat s rfl ?_ checked I).2 ?_ rfl
    · simpa [plainSolver] using inside
    · simpa [plainSolver] using filled

end Case

end CaseSplit
end Stratagem
