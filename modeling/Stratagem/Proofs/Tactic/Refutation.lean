import Stratagem.Proofs.BitBlast.Presence
import Stratagem.Proofs.Converter.Proof
import Stratagem.Proofs.Goal.Proof
import Stratagem.Proofs.Rewriting.Memory
import Stratagem.Proofs.Tactic.Justification

/-!
# Runs of tactics keep proofs

In goals that keep proofs every formula has a valid proof, whatever tactics do. A case split adds
hypotheses, and refutations of all subgoals, each under the hypotheses of its case, combine into a
refutation of the goal.
-/
namespace Stratagem

open Store (Extends)
open Proof (Valid Refutes conclusion)
open Rewriting (Recalls)

variable {given assumed : TermId → Prop} {s after : Store} {g : Goal} {r : Simplifier}
  {t : TermId} {e : Entry} {context : Context} {config : SimplifierConfig}

namespace Rewriting

open Attempt

/-- The result of simplifying a term is in the store. -/
theorem simplifyIn_within (recalls : Recalls config False r s) :
    (simplifyIn context t).Ensures r s
      (fun u r' after => Recalls config False r' after ∧ u < after.size) fun _ _ _ => True := by
  unfold simplifyIn
  apply ensures_get_bind
  exact (simplifyWithin_visits recalls).imp (fun _ _ _ _ result => ⟨result.1, result.2.1⟩)
    fun _ _ _ _ _ => trivial

/-- The equation of a term and its rewritten form. -/
theorem rewriting_valid (given assumed : TermId → Prop) {u : TermId} (first : t < s.size) (second : u < s.size) :
    (Proof.rewriting t u).Ensures s fun q after =>
      after.view q.conclusion = (.eq, [t, u]) ∧ q.Valid after given assumed := by
  have inside : ∀ a ∈ [t, u], a < s.size := by simp [first, second]
  have built : (Terms.mkEq t u).Ensures s _ := Terms.mkApp_node inside
  apply Terms.ensures_bind built
  rintro e middle _ ⟨within, node⟩
  have view : middle.view e = (.eq, [t, u]) := by rw [Store.view, node]
  have allowed : middle.Allows .rewriting (([] : List Proof).map conclusion) e := ⟨rfl, t, u, view⟩
  apply (Proof.make_valid within allowed (by simp) (by simp) (by simp) (List.forall_mem_nil _)).imp
  rintro q after grown ⟨rfl, valid⟩
  exact ⟨grown.view_of view (by simp), valid⟩

/-- The result of simplifying a term with a proof is the term, or comes with the equation. -/
theorem simplifyWithProof_valid (given assumed : TermId → Prop) (recalls : Recalls config False r s)
    (inside : t < s.size) : (simplifyWithProof context t).Ensures r s (fun found r' after =>
      Recalls config False r' after ∧ (found = (t, none) ∨ found.1 < after.size ∧
        ∃ q, found.2 = some q ∧ after.view q.conclusion = (.eq, [t, found.1]) ∧
          q.Valid after given assumed)) fun _ _ _ => True := by
  unfold simplifyWithProof
  apply ensures_bind (simplifyIn_within recalls)
  rintro u r' middle grown ⟨recalls, within⟩
  split
  · next same =>
    subst same
    exact ensures_pure ⟨recalls, .inl rfl⟩
  · apply ensures_build_bind (rewriting_valid given assumed (grown.lt_size inside) within)
    rintro q after more ⟨view, valid⟩
    exact ensures_pure ⟨recalls.mono more False.elim,
      .inr ⟨more.lt_size within, q, rfl, view, valid⟩⟩

end Rewriting

namespace Simplify

open Attempt

/-- The new formula of an entry has a proof if the old one does. -/
theorem simplifyEntry_proved (keeps : g.proofs = true) (recalls : Recalls config False r s)
    (known : Proved s given assumed e.formula e.proof) :
    (simplifyEntry context g e).Ensures r s (fun e' r' after =>
      Recalls config False r' after ∧ Proved after given assumed e'.formula e'.proof)
      fun _ _ _ => True := by
  unfold simplifyEntry
  rw [if_pos keeps]
  apply ensures_bind (Rewriting.simplifyWithProof_valid given assumed recalls known.inside)
  rintro ⟨f, equation⟩ r' middle grown ⟨recalls, outcome⟩
  have known := known.mono grown
  obtain ⟨p, proof, conclusion, valid⟩ := known
  rcases outcome with same | ⟨within, q, found, view, rewritten⟩
  · obtain ⟨rfl, rfl⟩ := Prod.mk.inj same
    rw [proof]
    exact ensures_pure ⟨recalls, p, rfl, conclusion, valid⟩
  · obtain rfl : equation = some q := found
    rw [proof]
    dsimp only
    have allowed : middle.Allows .modusPonens ([p, q].map Proof.conclusion) f :=
      ⟨e.formula, q.conclusion, by simp [conclusion], view⟩
    apply ensures_build_bind (Proof.make_valid within allowed (by simp) (by simp) (by simp)
      (by simp [valid, rewritten] : ∀ d ∈ [p, q], d.Valid middle given assumed))
    rintro m after more ⟨same, valid⟩
    exact ensures_pure ⟨recalls.mono more False.elim, m, rfl, same, valid⟩

/-- Simplifying the formula of a slot keeps proofs. -/
theorem visit_proved {slot : ℕ} (recalls : Recalls config False r s)
    (known : g.Passed s given assumed slot) (found : g.entries[slot]? = some e) :
    (visit context slot e g).Ensures r s (fun g' r' after =>
      Recalls config False r' after ∧ g'.Passed after given assumed (slot + 1))
      fun _ _ _ => True := by
  have checked (g' : Goal) (r' : Simplifier) (now : Store) (recalls : Recalls config False r' now)
      (passed : g'.Passed now given assumed (slot + 1)) : (do
        Attempt.check context
        return g' : Rewriting Goal).Ensures r' now (fun g' r' after =>
          Recalls config False r' after ∧ g'.Passed after given assumed (slot + 1))
        fun _ _ _ => True := by
    apply ensures_bind (Promise.check_keeps trivial)
    rintro _ _ _ _ ⟨rfl, rfl⟩
    exact ensures_pure ⟨recalls, passed⟩
  unfold visit
  apply ensures_bind (simplifyEntry_proved known.drafted.keeps recalls
    (known.later slot e le_rfl found))
  rintro e' r' middle grown ⟨recalls, proved⟩
  have known := known.mono grown
  split
  · exact checked g r' middle recalls known.next
  · apply ensures_build_bind (known.update proved)
    exact fun g' after more passed => checked g' r' after (recalls.mono more False.elim) passed

/-- Simplifying a goal keeps proofs. -/
theorem run_certified (known : g.Certified s given assumed) :
    (run context g).Ensures r s (fun result _ after =>
      ∃ g', result = .single g' ∧ g'.Certified after given assumed) fun _ _ _ => True := by
  unfold run
  apply ensures_modify_bind
  have recalls : Recalls r.config False r.reset s := .of_empty rfl False.elim rfl
  have all : (simplifyAll context g).Ensures r.reset s
      (fun g' _ after => g'.Certified after given assumed) fun _ _ _ => True := by
    apply ensures_bind (Goal.visitAll_ensures
      (P := fun slot g' r' now => Recalls r.config False r' now ∧ g'.Passed now given assumed slot)
      (fun slot e g' r' now known found _ => visit_proved known.1 known.2 found)
      (fun _ _ _ _ _ => trivial) ⟨recalls, Goal.Passed.start known⟩)
    rintro g' r' middle _ ⟨_, ⟨_, passed⟩, _⟩
    have reduced : (Attempt.build g'.elimRedundancies : Rewriting Goal).Ensures r' middle
        (fun g'' state after => state = r' ∧ g''.Certified after given assumed) fun _ _ _ => True :=
      ensures_build (Goal.elimRedundancies_certified passed.drafted)
    exact reduced.imp (fun _ _ _ _ result => result.2) fun _ _ _ _ _ => trivial
  split
  · exact ensures_pure ⟨g.deeper, rfl, known.deeper⟩
  · apply ensures_bind all
    exact fun g' _ after _ certified => ensures_pure ⟨g'.deeper, rfl, certified.deeper⟩

end Simplify

namespace EquationSolver

open Attempt Goal

variable {choices : EquationConfig} {f a b x : TermId} {d : Definition} {slot : ℕ} {origin : Entry}

/-- A constant is not `true`. -/
theorem ne_trueId_of_isVar (var : s.isVar x = true) : x ≠ Store.trueId := by
  rintro rfl
  rw [Store.isVar, Store.varName?, Store.op, s.node_trueId.2] at var
  cases var

/-- What is defined by an equation is a constant. -/
theorem isVar_of_direct? (found : direct? s x t = some d) : s.isVar d.1 = true := by
  unfold direct? at found
  split at found
  · next fits =>
    obtain rfl := Option.some.inj found
    exact (Bool.and_eq_true_iff.mp (Bool.and_eq_true_iff.mp fits).1).1
  · cases found

/-- What a linear equation is solved for is a constant. -/
theorem linear?_isVar {allowed : Store → TermId → Bool} :
    (linear? allowed a b).Ensures s fun found _ => ∀ d, found = some d → s.isVar d.1 = true := by
  unfold linear?
  apply Terms.ensures_read_bind
  dsimp only
  split
  · exact Terms.ensures_pure (by simp)
  · next position chosen =>
    split
    · next leading y there =>
      obtain ⟨short, holds, _⟩ := List.findIdx?_eq_some_iff_getElem.mp chosen
      rw [(List.getElem?_eq_some_iff.mp there).2] at holds
      apply Terms.ensures_bind_of_all
      intro body after _
      apply Terms.ensures_pure
      rintro d ⟨⟩
      simp only [solvable, Bool.and_eq_true] at holds
      exact holds.1.1.2
    · exact Terms.ensures_pure (by simp)

/-- A formula that gives a definition is not `true`, nor is what it defines. -/
theorem definition?_proper : (definition? choices g f).Ensures s fun found _ => ∀ d,
    found = some d → f ≠ Store.trueId ∧ d.1 ≠ Store.trueId := by
  have other {op : Op} {args : List TermId} (view : s.view f = (op, args))
      (different : op ≠ .bool true) : f ≠ Store.trueId := by
    rintro rfl
    rw [Store.view, s.node_trueId.2] at view
    exact different (congrArg Prod.fst view).symm
  unfold definition?
  apply Terms.ensures_read_bind
  dsimp only
  split
  · next name args view =>
    apply Terms.ensures_pure
    intro d found
    split at found
    · obtain rfl := Option.some.inj found
      exact ⟨other view (by simp), other view (by simp)⟩
    · cases found
  · next a view =>
    apply Terms.ensures_pure
    intro d found
    split at found
    · next chosen =>
      obtain rfl := Option.some.inj found
      exact ⟨other view (by simp), ne_trueId_of_isVar (Bool.and_eq_true_iff.mp chosen).1⟩
    · cases found
  · next a b view =>
    split
    · next d chosen =>
      apply Terms.ensures_pure
      rintro _ ⟨⟩
      refine ⟨other view (by simp), ne_trueId_of_isVar (s := s) ?_⟩
      rcases Option.or_eq_some_iff.mp chosen with first | ⟨_, second⟩
      · exact isVar_of_direct? (Option.filter_eq_some_iff.mp first).1
      · exact isVar_of_direct? (Option.filter_eq_some_iff.mp second).1
    · split
      · apply linear?_isVar.imp
        exact fun found after _ var d same =>
          ⟨other view (by simp), ne_trueId_of_isVar (var d same)⟩
      · exact Terms.ensures_pure (by simp)
  · exact Terms.ensures_pure (by simp)

/-- The formula that gives the first definition is not `true`, nor is what it defines. -/
theorem candidate?_proper {formulas : List TermId} :
    (candidate? choices g slot formulas).Ensures s fun found _ => ∀ place d,
      found = some (place, d) → d.1 ≠ Store.trueId ∧
        ∃ k f, place = slot + k ∧ formulas[k]? = some f ∧ f ≠ Store.trueId := by
  induction formulas generalizing s slot with
  | nil => exact Terms.ensures_pure (by simp)
  | cons f rest tail =>
    unfold candidate?
    apply Terms.ensures_bind definition?_proper
    intro found middle _ known
    cases found with
    | some d =>
      apply Terms.ensures_pure
      rintro _ _ ⟨⟩
      obtain ⟨formula, constant⟩ := known d rfl
      exact ⟨constant, 0, f, rfl, rfl, formula⟩
    | none =>
      apply tail.imp
      intro found after _ known place d chosen
      obtain ⟨constant, k, f', rfl, there, formula⟩ := known place d chosen
      exact ⟨constant, k + 1, f', by omega, there, formula⟩

/-- Only `true` occurs in `true`. -/
theorem occurs_trueId (other : x ≠ Store.trueId) : s.occurs x Store.trueId = false :=
  Store.occurs_of_args_nil (by rw [Store.args, s.node_trueId.2]) other

/-- Replacing a constant by its definition keeps proofs. -/
theorem replaceIn_drafted {i : ℕ} (recalls : Recalls config False r s)
    (known : g.Drafted s given assumed) (other : d.1 ≠ Store.trueId)
    (equation : Proved s given assumed origin.formula origin.proof)
    (found : g.entries[i]? = some e) :
    (replaceIn context slot origin d i e g).Ensures r s (fun g' r' after =>
      Recalls config False r' after ∧ g'.Drafted after given assumed ∧
        Proved after given assumed origin.formula origin.proof) fun _ _ _ => True := by
  unfold replaceIn
  apply ensures_read_bind
  split
  · next occurs =>
    have occurs := (Bool.and_eq_true_iff.mp occurs).2
    have nontrivial : e.formula ≠ Store.trueId := by
      intro trivial
      rw [trivial, occurs_trueId other] at occurs
      cases occurs
    have proved := (known.entries e (List.mem_of_getElem? found)).resolve_left nontrivial
    apply ensures_build_bind_of_all
    intro image middle grown
    apply ensures_bind (Rewriting.simplifyIn_within (recalls.mono grown False.elim))
    rintro u r' last more ⟨recalls, within⟩
    have grown := grown.trans more
    obtain ⟨p, first, _, left⟩ := proved.mono grown
    obtain ⟨q, second, _, right⟩ := equation.mono grown
    have made : (substituted e.proof origin.proof u).Ensures last fun proof after =>
        Proved after given assumed u proof := by
      have allowed : last.Allows .substitution ([p, q].map conclusion) u := ⟨_, _, rfl⟩
      have step : (Proof.make .substitution [p, q] u).Ensures last fun m after =>
          Proved after given assumed u (some m) :=
        Proved.of_make within allowed (by simp) (by simp) (by simp) (by simp [left, right])
      unfold substituted
      rw [first, second]
      exact Terms.ensures_bind step fun m after _ proved => Terms.ensures_pure proved
    apply ensures_build_bind made
    intro proof now further proved
    have grown := grown.trans further
    have updated (deps : Option DependencySet) : (g.update i ⟨u, proof, deps⟩).Ensures now
        fun g' after => g'.Drafted after given assumed :=
      (Goal.update_drafted (known.mono grown) (.inr proved)).imp fun _ _ _ result => result.1
    have built : (Attempt.build (g.update i
        ⟨u, proof, DependencySet.join e.deps origin.deps⟩) : Rewriting Goal).Ensures r' now
        (fun g' state after => state = r' ∧ g'.Drafted after given assumed) fun _ _ _ => True :=
      ensures_build (updated _)
    refine built.imp ?_ fun _ _ _ _ _ => trivial
    rintro g' _ after last ⟨rfl, drafted⟩
    exact ⟨(recalls.mono further False.elim).mono last False.elim, drafted,
      equation.mono (grown.trans last)⟩
  · exact ensures_pure ⟨recalls, known, equation⟩

/-- Eliminating a constant keeps proofs. -/
theorem eliminate_drafted (recalls : Recalls config False r s) (known : g.Drafted s given assumed)
    (other : d.1 ≠ Store.trueId) (found : g.entries[slot]? = some origin)
    (nontrivial : origin.formula ≠ Store.trueId) :
    (eliminate context slot d g).Ensures r s (fun g' r' after =>
      Recalls config False r' after ∧ g'.Drafted after given assumed) fun _ _ _ => True := by
  have equation := (known.entries origin (List.mem_of_getElem? found)).resolve_left nontrivial
  unfold eliminate
  rw [found, Option.getD_some]
  apply ensures_build_bind (Goal.update_drafted (e := ⟨Store.trueId, none, none⟩) known (.inl rfl))
  rintro cleared middle grown ⟨drafted, _⟩
  apply (Goal.visitAll_ensures (P := fun _ g' r' now => Recalls config False r' now ∧
      g'.Drafted now given assumed ∧ Proved now given assumed origin.formula origin.proof)
    (fun i e g' r' now known found _ => replaceIn_drafted known.1 known.2.1 other known.2.2 found)
    (fun _ _ _ _ _ => trivial)
    ⟨recalls.mono grown False.elim, drafted, equation.mono grown⟩).imp
  · rintro g' r' after _ ⟨_, ⟨recalls, drafted, _⟩, _⟩
    exact ⟨recalls, drafted⟩
  · exact fun _ _ _ _ _ => trivial

/-- Eliminating constants as long as a formula defines one keeps proofs. -/
theorem eliminateAll_drafted {rounds : ℕ} (recalls : Recalls config False r s)
    (known : g.Drafted s given assumed) :
    (eliminateAll choices context rounds g).Ensures r s (fun found r' after =>
      Recalls config False r' after ∧ found.1.Drafted after given assumed) fun _ _ _ => True := by
  induction rounds generalizing g r s with
  | zero => exact ensures_pure ⟨recalls, known⟩
  | succ rounds later =>
    unfold eliminateAll
    split
    · exact ensures_pure ⟨recalls, known⟩
    · apply ensures_build_bind candidate?_proper
      intro found middle grown proper
      have recalls := recalls.mono grown False.elim
      have known := known.mono grown
      cases found with
      | none => exact ensures_pure ⟨recalls, known⟩
      | some chosen =>
        obtain ⟨place, var, body⟩ := chosen
        obtain ⟨other, k, f, slot, there, nontrivial⟩ := proper place _ rfl
        rw [Goal.formulas, List.getElem?_map, Option.map_eq_some_iff] at there
        obtain ⟨origin, there, rfl⟩ := there
        obtain rfl : place = k := by omega
        apply ensures_bind (Promise.check_keeps trivial)
        rintro _ _ _ _ ⟨rfl, rfl⟩
        apply ensures_bind (Rewriting.simplifyIn_within recalls)
        rintro body' r' last more ⟨recalls, _⟩
        apply ensures_bind (eliminate_drafted (d := (var, body')) recalls (known.mono more) other
          there nontrivial)
        rintro g' r' now _ ⟨recalls, drafted⟩
        apply ensures_bind (later recalls drafted)
        rintro ⟨g'', rest⟩ r' final _ ⟨recalls, drafted⟩
        exact ensures_pure ⟨recalls, drafted⟩

/-- Eliminating defined constants keeps proofs. -/
theorem run_certified {solver : EquationSolver} (known : g.Certified s given assumed) :
    (solver.run context g).Ensures s fun found after => ∀ r, found.1 = .ok r →
      ∃ g' defs, r = result g' defs ∧ g'.Certified after given assumed := by
  obtain ⟨choices, simplifier, eliminated⟩ := solver
  have solved : (solve choices context g).Ensures simplifier.reset s
      (fun found _ after => found.1.Certified after given assumed) fun _ _ _ => True := by
    have recalls : Recalls simplifier.config False simplifier.reset s :=
      .of_empty rfl False.elim rfl
    unfold solve
    apply ensures_read_bind
    apply ensures_bind (eliminateAll_drafted recalls known.drafted)
    rintro ⟨g', defs⟩ r' middle _ ⟨_, drafted⟩
    apply ensures_build_bind (Goal.elimRedundancies_certified drafted)
    exact fun g'' after _ certified => ensures_pure certified
  unfold Attempt.Ensures at solved
  apply Terms.ensures_bind solved
  rintro ⟨outcome, simplifier'⟩ after _ known
  cases outcome with
  | ok found =>
    apply Terms.ensures_pure
    rintro r ⟨⟩
    exact ⟨found.1, found.2, rfl, known⟩
  | error e => exact Terms.ensures_pure (by simp)

end EquationSolver

namespace CaseSplit

open Attempt
open ProofConverter (assume Combines)

variable {base : Goal} {deps : Option DependencySet} {member : TermId} {members : List TermId}

/-- Asserting formulas with their proofs. -/
theorem assertAll_certified {entries : List Entry} (known : g.Certified s given assumed)
    (each : ∀ e ∈ entries, Proved s given assumed e.formula e.proof) :
    (assertAll g entries).Ensures s fun g' after => g'.Certified after given assumed := by
  induction entries generalizing g s with
  | nil => exact Terms.ensures_pure known
  | cons e rest later =>
    obtain ⟨here, others⟩ := List.forall_mem_cons.mp each
    apply Terms.ensures_bind (Goal.assertEntry_certified known here)
    exact fun g' middle grown certified =>
      later certified fun d inside => (others d inside).mono grown

/-- In the case of a member, the member is assumed. -/
theorem case_certified (known : base.Certified s given assumed) (inside : member < s.size) :
    (case base deps member).Ensures s fun g' after =>
      g'.Certified after given (assume assumed member) := by
  have known : base.Certified s given (assume assumed member) := known.weaken fun _ => .inl
  have assumption : (Proof.hypothesis member).Ensures s fun p after =>
      Proved after given (assume assumed member) member (some p) :=
    Proved.of_make inside rfl (by simp) (fun _ => .inr rfl) (by simp) (List.forall_mem_nil _)
  unfold case
  rw [if_pos known.keeps, bind_map_left]
  apply Terms.ensures_bind assumption
  exact fun p middle grown proved => Goal.assertEntry_certified (known.mono grown) proved

/-- In each case its member is assumed. -/
theorem cases_certified (known : base.Certified s given assumed)
    (inside : ∀ l ∈ members, l < s.size) :
    (cases context base deps members).Ensures () s (fun goals _ after =>
      List.Forall₂ (fun g' l => g'.Certified after given (assume assumed l)) goals members)
      fun _ _ _ => True := by
  induction members generalizing s with
  | nil => exact ensures_pure .nil
  | cons l rest later =>
    obtain ⟨here, others⟩ := List.forall_mem_cons.mp inside
    unfold cases
    apply ensures_bind (Promise.check_keeps trivial)
    rintro _ _ _ _ ⟨rfl, rfl⟩
    apply ensures_build_bind (case_certified known here)
    intro g' middle grown certified
    apply ensures_bind (later (known.mono grown) (grown.all_lt_size others))
    intro goals _ after more all
    exact ensures_pure (.cons (certified.mono more) all)

/-- A case split makes cases with assumptions of their own, and refutations of all of them become
one of the goal. -/
theorem run_certified {largest : Bool} (known : g.Certified s given assumed) :
    (run largest context g).Ensures () s (fun r _ after => r.proofs.isIdentity = false ∧
      ∃ cases, List.Forall₂ (fun g' case => g'.Certified after given case) r.goals cases ∧
        r.proofs.Combines after given assumed cases) fun _ _ _ => True := by
  unfold run
  apply ensures_read_bind
  split
  · exact ensures_throw trivial
  · next slot members found =>
    obtain ⟨e, there, view⟩ := select?_spec found
    obtain ⟨p, proof, conclusion, valid⟩ := known.entries e (List.mem_of_getElem? there)
    have inside : ∀ l ∈ members, l < s.size :=
      Store.lt_size_of_view (conclusion ▸ valid.inside) view
    have empty : g.cleared.Certified s given assumed := .of_nil known.keeps rfl rfl
    apply ensures_build_bind (assertAll_certified empty fun d member =>
      known.entries d (List.mem_of_mem_eraseIdx member))
    intro base middle grown certified
    rw [there, Option.getD_some]
    apply ensures_bind (cases_certified certified.deeper (grown.all_lt_size inside))
    intro goals _ after more all
    have grown := grown.trans more
    have combines : (ProofConverter.splitClause e.formula p).Combines after given assumed
        (members.map (assume assumed)) :=
      ProofConverter.splitClause_combines (grown.view_of view (by simp))
        ⟨conclusion, valid.mono grown⟩
    rw [proof]
    exact ensures_pure ⟨rfl, members.map (assume assumed), List.forall₂_map_right_iff.mpr all,
      combines⟩

end CaseSplit

namespace Blaster

open Attempt

variable {b : Blaster}

/-- Encoding the formula of a slot keeps proofs. -/
theorem visit_proved {slot : ℕ} (known : b.work.Inside s) (passed : g.Passed s given assumed slot)
    (found : g.entries[slot]? = some e) :
    (visit context slot e g).Ensures b s (fun g' b' after =>
      b'.work.Inside after ∧ g'.Passed after given assumed (slot + 1)) fun _ _ _ => True := by
  have proved := passed.later slot e le_rfl found
  unfold visit
  apply ensures_bind (Promise.check_keeps trivial)
  rintro _ _ _ _ ⟨rfl, rfl⟩
  apply ensures_bind ((encodings_present context (e.formula + 1)).2 e.formula _ _ proved.inside known)
  rintro encoding b' middle grown ⟨known, inside⟩
  have passed := passed.mono grown
  split
  · exact ensures_pure ⟨known, passed.next⟩
  · obtain ⟨p, proof, conclusion, valid⟩ := proved.mono grown
    have allowed : middle.Allows .bitBlast ([p].map Proof.conclusion) encoding := .inr ⟨_, rfl⟩
    have step : (Proof.make .bitBlast [p] encoding).Ensures middle fun q after =>
        Proved after given assumed encoding (some q) :=
      Proved.of_make inside allowed (by simp) (by simp) (by simp) (by simpa using valid)
    have derived : (Goal.derive .bitBlast e.proof encoding).Ensures middle fun part after =>
        Goal.PartProved after given assumed part := by
      unfold Goal.derive
      rw [proof]
      exact Terms.ensures_bind step fun q after _ proved => Terms.ensures_pure proved
    apply ensures_build_bind derived
    rintro ⟨f, q⟩ last more proved
    have updated : (g.update slot ⟨f, q, e.deps⟩).Ensures last fun g' after =>
        g'.Passed after given assumed (slot + 1) := (passed.mono more).update proved
    have built : (Attempt.build (g.update slot ⟨f, q, e.deps⟩) : Attempt Blaster Goal).Ensures b'
        last (fun g' state after => state = b' ∧ g'.Passed after given assumed (slot + 1))
        fun _ _ _ => True := ensures_build updated
    refine built.imp ?_ fun _ _ _ _ _ => trivial
    rintro g' _ after most ⟨rfl, passed⟩
    exact ⟨known.mono (more.trans most), passed⟩

/-- The equations that tie terms to their bits have proofs. -/
theorem assertLinks_certified {pairs : List (TermId × Bits)} (known : g.Certified s given assumed)
    (inside : ∀ c ∈ pairs, c.1 < s.size) :
    (assertLinks g pairs).Ensures s fun g' after => g'.Certified after given assumed := by
  induction pairs generalizing g s with
  | nil => exact Terms.ensures_pure known
  | cons c rest later =>
    obtain ⟨t, bits⟩ := c
    obtain ⟨here, others⟩ := List.forall_mem_cons.mp inside
    unfold assertLinks
    apply Terms.ensures_bind (Circuit.link?_equation here bits)
    intro found middle grown equation
    have known := known.mono grown
    have others : ∀ c ∈ rest, c.1 < middle.size := fun c member => grown.lt_size (others c member)
    cases found with
    | none => exact later known others
    | some link =>
      obtain ⟨there, value, view⟩ := equation link rfl
      have step : (Proof.make .bitBlast [] link).Ensures middle fun q after =>
          Proved after given assumed link (some q) :=
        Proved.of_make there (.inl ⟨rfl, t, value, view⟩) (by simp) (by simp) (by simp)
          (List.forall_mem_nil _)
      dsimp only
      rw [if_pos known.keeps, bind_map_left]
      apply Terms.ensures_bind step
      intro q last more proved
      apply Terms.ensures_bind (Goal.assertEntry_certified (e := ⟨link, some q, none⟩)
        (known.mono more) proved)
      exact fun g' now most certified => later certified fun c member =>
        (more.trans most).lt_size (others c member)

/-- Bit-blasting keeps proofs. -/
theorem run_certified (known : g.Certified s given assumed) :
    (run context g).Ensures b s (fun r _ after => r.proofs = .identity ∧
      ∃ g', r.goals = [g'] ∧ g'.Certified after given assumed) fun _ _ _ => True := by
  unfold run
  apply ensures_get_bind
  split
  · exact ensures_throw_bind trivial
  · dsimp only
    apply ensures_modify_bind
    have empty : b.cleanup.work.Inside s := BlastWork.inside_empty s
    apply ensures_bind (Goal.visitFrom_ensures g.size
      (P := fun slot g' b' now => b'.work.Inside now ∧ g'.Passed now given assumed slot)
      (fun slot e g' b' now _ known found _ => visit_proved known.1 known.2 found) g.size 0
      (Nat.zero_add _) ⟨empty, Goal.Passed.start known⟩)
    rintro g' b' middle _ ⟨_, ⟨inside, passed⟩, _⟩
    apply ensures_build_bind (Goal.elimRedundancies_certified passed.drafted)
    intro g'' last grown certified
    have inside := inside.mono grown
    apply ensures_get_bind
    have tied : ∀ c ∈ linked b'.work, c.1 < last.size := by
      intro c member
      rcases List.mem_append.mp member with replaced | applied
      · exact (inside.constants c (Array.mem_toList_iff.mp (List.mem_of_mem_filter replaced))).1
      · exact (inside.applications c (Array.mem_toList_iff.mp applied)).1
    have finish (g' : Goal) (now : Store) (certified : g'.Certified now given assumed)
        (models : ModelConverter) : (do
          modify fun b : Blaster => cleanup { b with stats := { b.stats with steps := b'.work.steps } }
          return { goals := [g'.deeper], models } : Attempt Blaster TacticResult).Ensures b' now
        (fun r _ after => r.proofs = .identity ∧
          ∃ g', r.goals = [g'] ∧ g'.Certified after given assumed) fun _ _ _ => True :=
      ensures_modify_bind (ensures_pure ⟨rfl, g'.deeper, rfl, certified.deeper⟩)
    split
    · exact ensures_pure_bind (finish g'' last certified _)
    · apply ensures_build_bind (assertLinks_certified certified tied)
      exact fun g' after _ certified => finish g' after certified _

end Blaster

namespace TacticResult

open ProofConverter (Combines Cased RefuteAll)

variable {first : TacticResult} {g' : Goal} {results : List TacticResult}
  {cases : List (TermId → Prop)} {goals : List Goal}

/-- The formulas of each goal have proofs with the assumptions of a case. -/
abbrev CertifiedAll (s : Store) (given : TermId → Prop) (goals : List Goal)
    (cases : List (TermId → Prop)) : Prop :=
  List.Forall₂ (fun g case => g.Certified s given case) goals cases

/-- A result keeps proofs: under whatever assumptions the formulas of the goal have proofs, those of
each subgoal have proofs in a case, and refutations of all cases become one of the goal. -/
structure Reduces (given : TermId → Prop) (g : Goal) (r : TacticResult) (s : Store) : Prop where
  /-- The formulas of the goal have proofs under some assumptions. -/
  readable : g.Certified s given fun _ => True
  /-- Several subgoals have a converter. -/
  single : r.proofs.isIdentity = true → r.goals.length ≤ 1
  /-- Refutations of the subgoals become a refutation of the goal. -/
  combines : ∀ assumed, g.Certified s given assumed → ∃ cases,
    CertifiedAll s given r.goals cases ∧ r.proofs.Combines s given assumed cases

namespace Reduces

variable {r : TacticResult}

/-- Proofs are kept also when the store grows. -/
theorem mono (known : r.Reduces given g s) (grown : s.Extends after) :
    r.Reduces given g after where
  readable := known.readable.mono grown
  single := known.single
  combines assumed later := by
    obtain ⟨cases, certified, combines⟩ :=
      known.combines assumed (known.readable.of_extends grown later)
    exact ⟨cases, certified.imp fun _ _ certified => certified.mono grown, combines.mono grown⟩

/-- A result with one subgoal and no converter. -/
theorem of_single (readable : g.Certified s given fun _ => True) (grown : s.Extends after)
    (only : r.goals = [g']) (identity : r.proofs = .identity)
    (certified : ∀ assumed, g.Certified s given assumed → g'.Certified after given assumed) :
    r.Reduces given g after where
  readable := readable.mono grown
  single _ := by
    rw [only]
    exact le_rfl
  combines assumed later := by
    rw [only, identity]
    exact ⟨[assumed], .cons (certified assumed (readable.of_extends grown later)) .nil,
      ProofConverter.identity_combines after given assumed⟩

/-- The formulas of the subgoals have proofs under some assumptions. -/
theorem subgoals (known : r.Reduces given g s) :
    ∀ g' ∈ r.goals, g'.Certified s given fun _ => True := by
  intro g' member
  obtain ⟨cases, certified, _⟩ := known.combines _ known.readable
  obtain ⟨case, _, here⟩ := exists_of_forall₂ certified member
  exact here.weaken fun _ _ => trivial

/-- Results on all subgoals split their cases further. -/
theorem exists_branches (all : List.Forall₂ (fun g r => r.Reduces given g s) goals results)
    (certified : CertifiedAll s given goals cases) :
    ∃ branches : List Cased, branches.map (·.1) = results.map (·.proofs) ∧
      branches.map (·.2.length) = results.map (·.goals.length) ∧
      List.Forall₂ (fun (b : Cased) case => b.1.Combines s given case b.2) branches cases ∧
      CertifiedAll s given (results.flatMap (·.goals)) (branches.flatMap (·.2)) := by
  induction all generalizing cases with
  | nil =>
    obtain rfl := List.forall₂_nil_left_iff.mp certified
    exact ⟨[], rfl, rfl, .nil, .nil⟩
  | @cons g r _ _ known _ tail =>
    obtain ⟨case, others, here, rest, rfl⟩ := List.forall₂_cons_left_iff.mp certified
    obtain ⟨inner, split, combines⟩ := known.combines case here
    obtain ⟨branches, converters, counts, each, later⟩ := tail rest
    refine ⟨(r.proofs, inner) :: branches, ?_, ?_, .cons combines each, ?_⟩
    · rw [List.map_cons, List.map_cons, converters]
    · rw [List.map_cons, List.map_cons, counts, split.length_eq]
    · exact List.rel_append split later

/-- Results on all subgoals combine. -/
theorem combinedProofs (known : first.Reduces given g s)
    (all : List.Forall₂ (fun g r => r.Reduces given g s) first.goals results)
    (certified : g.Certified s given assumed) :
    ∃ cases, CertifiedAll s given (results.flatMap (·.goals)) cases ∧
      (first.combinedProofs results).Combines s given assumed cases := by
  obtain ⟨cases, split, combines⟩ := known.combines assumed certified
  obtain ⟨branches, converters, counts, each, later⟩ := exists_branches all split
  refine ⟨branches.flatMap (·.2), later, ?_⟩
  have whole := ProofConverter.ofBranches_combines combines
    (fun identity => split.length_eq ▸ known.single identity) each
  rwa [converters, counts] at whole

/-- A result on the only subgoal. -/
theorem after_single (known : first.Reduces given g s) (only : first.goals = [g'])
    (next : r.Reduces given g' s) : (first.after r).Reduces given g s where
  readable := known.readable
  single identity := by
    have identity : (ProofConverter.ofBranches first.proofs [r.proofs]
      [r.goals.length]).isIdentity = true := identity
    unfold ProofConverter.ofBranches at identity
    split at identity
    · exact next.single identity
    · cases identity
  combines assumed certified := by
    have all : List.Forall₂ (fun g r => r.Reduces given g s) first.goals [r] := by
      rw [only]
      exact .cons next .nil
    have combined := known.combinedProofs all certified
    rw [List.flatMap_singleton] at combined
    exact combined

/-- The converter of results on several subgoals does not pass on a refutation. -/
theorem isIdentity_combinedProofs (known : first.Reduces given g s)
    (several : 1 < first.goals.length) : (first.combinedProofs results).isIdentity = false := by
  have works : first.proofs.isIdentity = false := by
    by_contra identity
    exact absurd (known.single (by simpa using identity)) (by omega)
  unfold TacticResult.combinedProofs ProofConverter.ofBranches
  rw [if_neg (by simp [works])]
  rfl

/-- A subgoal that is satisfied has no formulas to prove. -/
theorem satisfiedAt {models : ModelConverter} {position : ℕ} {final : Goal}
    (known : first.Reduces given g s) (shape : g' ∈ first.goals) (next : r.Reduces given g' s)
    (satisfied : r.satisfied? g' = some final) :
    (first.satisfiedAt results position models final).Reduces given g s := by
  have keeps : final.proofs = true := by
    unfold satisfied? at satisfied
    split at satisfied
    · rcases left : r.goals with _ | ⟨h, rest⟩
      · rw [left] at satisfied
        obtain rfl : g'.cleared = final := by simpa using satisfied
        exact (known.subgoals g' shape).keeps
      · rw [left] at satisfied
        obtain rfl : h = final := by simpa using satisfied
        exact (next.subgoals h (by rw [left]; exact List.mem_cons_self ..)).keeps
    · cases satisfied
  obtain ⟨empty, consistent⟩ := Goal.isDecidedSat_iff.mp (isDecidedSat_of_satisfied? satisfied)
  exact of_single known.readable (.refl s) rfl rfl fun _ _ => .of_nil keeps consistent empty

end Reduces

/-- Refuted goals have refutations, each with the assumptions of its case. -/
theorem exists_refutations (certified : CertifiedAll s given goals cases)
    (refuted : ∀ g ∈ goals, g.inconsistent = true) :
    ∃ proofs, goals.mapM Goal.refutation? = some proofs ∧ RefuteAll s given proofs cases := by
  induction certified with
  | nil => exact ⟨[], rfl, .nil⟩
  | cons here _ tail =>
    obtain ⟨first, others⟩ := List.forall_mem_cons.mp refuted
    obtain ⟨p, found, refutes⟩ := here.refutation first
    obtain ⟨proofs, rest, all⟩ := tail others
    exact ⟨p :: proofs, by simp [List.mapM_cons, found, rest], .cons refutes all⟩

/-- Subgoals that are all refuted come down to one with a refutation. -/
theorem collapsed_certified {converter : ProofConverter} {template : Goal}
    (combines : converter.Combines s given assumed cases) (works : converter.isIdentity = false)
    (certified : CertifiedAll s given goals cases) (there : template ∈ goals)
    (refuted : ∀ g ∈ goals, g.inconsistent = true) :
    (collapsed converter template goals).Ensures s fun outcome after => ∀ g', outcome = .ok g' →
      g'.Certified after given assumed := by
  have keeps : template.proofs = true := by
    obtain ⟨_, _, here⟩ := exists_of_forall₂ certified there
    exact here.keeps
  obtain ⟨proofs, found, refute⟩ := exists_refutations certified refuted
  have combined : (combinedRefutation converter template goals).Ensures s fun outcome after =>
      ∀ proof, outcome = .ok proof → Proved after given assumed Store.falseId proof := by
    unfold combinedRefutation
    rw [found]
    dsimp only
    rw [if_pos (by simp [keeps, works])]
    apply Terms.ensures_bind (combines s (.refl s) proofs refute)
    intro outcome after _ refutes
    apply Terms.ensures_pure
    intro proof same
    cases outcome with
    | error e => cases same
    | ok p =>
      obtain rfl := Except.ok.inj same
      exact ⟨p, rfl, refutes p rfl⟩
  unfold collapsed
  apply Terms.ensures_bind combined
  intro outcome middle _ proved
  cases outcome with
  | error e => exact Terms.ensures_pure (by simp)
  | ok proof =>
    have empty : template.cleared.Certified middle given assumed := .of_nil keeps rfl rfl
    apply Terms.ensures_bind (Goal.assertEntry_certified (e := ⟨Store.falseId, proof, _⟩) empty
      (proved proof rfl))
    intro g' after _ certified
    apply Terms.ensures_pure
    rintro _ ⟨⟩
    exact certified

end TacticResult

namespace Promise

open TacticResult (Reduces)

/-- The promise that proofs are kept. -/
def certified (given : TermId → Prop) : Promise where
  Pre g s := g.Certified s given fun _ => True
  Post g r s := r.Reduces given g s
  pre_mono known grown := known.mono grown
  post_mono known grown := known.mono grown
  keep known := Reduces.of_single known (.refl _) rfl rfl fun _ certified => certified
  subgoals known := known.subgoals
  after known only next := known.after_single only next
  satisfiedAt known shape _ next satisfied := by
    refine known.satisfiedAt ?_ next satisfied
    rw [shape]
    exact List.mem_append_right _ (List.mem_cons_self ..)
  afterAll := by
    intro g first results s known several all
    have all : List.Forall₂ (fun g r => r.Reduces given g s) first.goals results :=
      all.imp fun _ _ both => both.1
    have works : (first.combinedProofs results).isIdentity = false :=
      known.isIdentity_combinedProofs several
    have collapses : ∀ template ∈ results.flatMap (·.goals),
        (∀ g' ∈ results.flatMap (·.goals), g'.inconsistent = true) →
        (TacticResult.collapsed (first.combinedProofs results) template
          (results.flatMap (·.goals))).Ensures s fun outcome after => ∀ g', outcome = .ok g' →
            ∀ assumed, g.Certified s given assumed → g'.Certified after given assumed := by
      intro template there refuted
      have each := Terms.ensures_forall fun assumed : TermId → Prop =>
        Terms.ensures_forall fun holds : g.Certified s given assumed =>
          have combined := known.combinedProofs all holds
          TacticResult.collapsed_certified combined.choose_spec.2 works combined.choose_spec.1 there
            refuted
      exact each.imp fun outcome after _ result g' same assumed holds =>
        result assumed holds g' same
    apply (TacticResult.afterAll_ensures collapses).imp
    rintro outcome after grown result r rfl
    obtain ⟨_, ⟨goals, _, proofs⟩ | ⟨g', goals, _, proofs, certified⟩⟩ := result r rfl
    · refine Reduces.mono ⟨known.readable, fun identity => ?_, fun assumed holds => ?_⟩ grown
      · rw [proofs, works] at identity
        cases identity
      · rw [goals, proofs]
        exact known.combinedProofs all holds
    · exact Reduces.of_single known.readable grown goals proofs certified

/-- All basic tactics keep proofs. -/
theorem certified_basics (given : TermId → Prop) : (certified given).Basics True where
  simplify := by
    intro context g s known r _
    have each : (Simplify.run context g).Ensures r s _ fun _ _ _ => True :=
      Attempt.ensures_forall fun assumed : TermId → Prop =>
        Attempt.ensures_forall fun holds : g.Certified s given assumed =>
          Simplify.run_certified holds
    apply each.imp
    · rintro result _ after grown results
      obtain ⟨g', rfl, _⟩ := results _ known
      refine ⟨Reduces.of_single known grown rfl rfl fun assumed holds => ?_, trivial⟩
      obtain ⟨h, same, certified⟩ := results assumed holds
      obtain rfl : g' = h := List.singleton_inj.mp (congrArg TacticResult.goals same)
      exact certified
    · exact fun _ _ _ _ _ => trivial
  solveEqs := by
    intro context g s solver known
    have each : (solver.run context g).Ensures s _ :=
      Terms.ensures_forall fun assumed : TermId → Prop =>
        Terms.ensures_forall fun holds : g.Certified s given assumed =>
          EquationSolver.run_certified holds
    apply each.imp
    rintro found after grown results r outcome
    obtain ⟨g', defs, rfl, _⟩ := results _ known r outcome
    refine Reduces.of_single known grown rfl rfl fun assumed holds => ?_
    obtain ⟨h, defs', same, certified⟩ := results assumed holds _ outcome
    have same : g'.deeper = h.deeper := List.singleton_inj.mp (congrArg TacticResult.goals same)
    exact same ▸ certified.deeper
  splitClause := by
    intro context g s largest known state _
    have each : (CaseSplit.run largest context g).Ensures state s _ fun _ _ _ => True :=
      Attempt.ensures_forall fun assumed : TermId → Prop =>
        Attempt.ensures_forall fun holds : g.Certified s given assumed =>
          CaseSplit.run_certified holds
    apply each.imp
    · rintro r _ after grown results
      obtain ⟨works, _⟩ := results _ known
      refine ⟨⟨known.mono grown, fun identity => ?_, fun assumed holds => ?_⟩, trivial⟩
      · rw [works] at identity
        cases identity
      · exact (results assumed (known.of_extends grown holds)).2
    · exact fun _ _ _ _ _ => trivial
  bitBlast := by
    intro _ context g s known b _
    have each : (Blaster.run context g).Ensures b s _ fun _ _ _ => True :=
      Attempt.ensures_forall fun assumed : TermId → Prop =>
        Attempt.ensures_forall fun holds : g.Certified s given assumed =>
          Blaster.run_certified holds
    apply each.imp
    · rintro r _ after grown results
      obtain ⟨identity, g', only, _⟩ := results _ known
      refine ⟨Reduces.of_single known grown only identity fun assumed holds => ?_, trivial⟩
      obtain ⟨_, h, same, certified⟩ := results assumed holds
      obtain rfl : g' = h := List.singleton_inj.mp (only.symm.trans same)
      exact certified
    · exact fun _ _ _ _ _ => trivial

end Promise
end Stratagem
