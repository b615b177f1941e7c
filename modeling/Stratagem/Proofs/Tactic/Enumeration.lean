import Stratagem.Proofs.Goal.Choice
import Stratagem.Proofs.Tactic.CaseSplit
import Stratagem.Proofs.Tactic.Sequence
import Stratagem.Proofs.Term.Traversal

/-!
# Enumeration of cases

Splitting clauses until none is left. A case split puts cases in the place of a goal that hold
together where the goal holds, each with fewer choices than the goal, so the repetition ends after
as many rounds as the goal has choices. Along the way a case that is satisfied becomes the only one,
and cases that are all refuted become one refuted goal; both agree with what the goal says.
-/
namespace Stratagem

open Store (Extends)

variable {s after : Store} {g g' base : Goal} {e : Entry} {n : ℕ}

namespace Goal

/-- Asserting `true` with any justification changes nothing. -/
theorem run_assertEntry_of_trueId (literal : e.formula = Store.trueId) :
    (g.assertEntry e).run s = (g, s) := by
  cases consistent : g.inconsistent with
  | true =>
    rw [assertEntry, consistent]
    rfl
  | false =>
    have flattened : (flatten e.formula (g.keptProof e.proof)).run s = ([], s) := by
      rw [literal, run_flatten_trueId]
    rw [run_assertEntry consistent flattened rfl, entriesOf, List.map_nil, List.append_nil]

/-- An entry of a goal in normal form can be asserted: it is `true`, or what is proved of it is its
formula. -/
def Assertable (s : Store) (e : Entry) : Prop := e.formula = Store.trueId ∨ e.Concluded s

/-- The entries of a goal in normal form can be asserted. -/
theorem WellFormed.assertable (known : g.WellFormed s) (member : e ∈ g.entries) :
    Assertable s e := by
  by_cases literal : e.formula = Store.trueId
  · exact .inl literal
  · exact .inr ⟨known.inside _ (List.mem_map_of_mem member), known.conclusion e member literal⟩

/-- Entries can be asserted when the store has grown. -/
theorem Assertable.mono (known : Assertable s e) (grown : s.Extends after) : Assertable after e :=
  known.imp_right fun concluded => ⟨grown.lt_size concluded.inside, concluded.conclusion⟩

/-- A goal in normal form with a number of choices at most. -/
structure Ready (n : ℕ) (g : Goal) (s : Store) : Prop where
  /-- The goal is in normal form. -/
  normal : g.WellFormed s
  /-- Its choices. -/
  choices : s.HasChoices g.formulas n

/-- A goal stays ready when the store grows. -/
theorem Ready.mono (known : g.Ready n s) (grown : s.Extends after) : g.Ready n after :=
  ⟨known.normal.mono grown, known.choices.mono grown⟩

/-- A goal that holds where formulas held before. -/
def Means (s : Store) (g : Goal) (before : Store) (formulas : List TermId) : Prop :=
  ∀ I : Interpretation, I.HoldAll s g.formulas ↔ I.HoldAll before formulas

/-- Goals that hold together where a goal holds. -/
structure Covers (s : Store) (g : Goal) (goals : List Goal) : Prop where
  /-- The formulas of the goal are in the store. -/
  inside : ∀ f ∈ g.formulas, f < s.size
  /-- The goals are in normal form. -/
  normal : ∀ g' ∈ goals, g'.WellFormed s
  /-- The goal holds where one of the goals does. -/
  cases : ∀ I : Interpretation, I.HoldAll s g.formulas ↔ ∃ g' ∈ goals, I.HoldAll s g'.formulas

/-- Goals cover a goal when the store has grown. -/
theorem Covers.mono {goals : List Goal} (known : Covers s g goals) (grown : s.Extends after) :
    Covers after g goals where
  inside f member := grown.lt_size (known.inside f member)
  normal g' member := (known.normal g' member).mono grown
  cases I := by
    rw [I.holdAll_iff grown known.inside, known.cases I]
    exact exists_congr fun g' => and_congr_right fun member =>
      (I.holdAll_iff grown (known.normal g' member).inside).symm

end Goal

namespace CaseSplit

open Attempt Goal

/-- Asserting one more formula. -/
theorem assertEntry_ready (known : g.WellFormed s) (asserted : Assertable s e)
    (choices : s.HasChoices (e.formula :: g.formulas) n) :
    (g.assertEntry e).Ensures s fun g' after =>
      g'.Ready n after ∧ Means after g' s (e.formula :: g.formulas) := by
  have shared := assertEntry_choices choices
  have means : ∀ {g' : Goal} {after : Store}, (∀ I : Interpretation, I.HoldAll after g'.formulas ↔
      I.HoldAll s g.formulas ∧ I.holds (s.tree e.formula)) →
      Means after g' s (e.formula :: g.formulas) := by
    intro g' after meaning I
    rw [meaning I, Interpretation.HoldAll, Interpretation.HoldAll, List.forall_mem_cons, and_comm]
  rcases asserted with literal | concluded
  · unfold Terms.Ensures at shared ⊢
    rw [run_assertEntry_of_trueId literal] at shared ⊢
    refine ⟨⟨known, shared⟩, means fun I => (and_iff_left ?_).symm⟩
    rw [literal]
    exact (I.reading.trueId s).2.mpr rfl
  · have meaning := Terms.ensures_forall fun I => assertEntry_holdAll known concluded I
    apply ((assertEntry_wellFormed known concluded).and (shared.and meaning)).imp
    exact fun g' after _ ⟨normal, choices, meaning⟩ => ⟨⟨normal, choices⟩, means meaning⟩

/-- Asserting all entries. -/
theorem assertAll_ready {entries : List Entry} (known : g.WellFormed s)
    (each : ∀ e ∈ entries, Assertable s e)
    (choices : s.HasChoices (entries.map Entry.formula ++ g.formulas) n) :
    (assertAll g entries).Ensures s fun g' after =>
      g'.Ready n after ∧ Means after g' s (entries.map Entry.formula ++ g.formulas) := by
  induction entries generalizing g s with
  | nil => exact Terms.ensures_pure ⟨⟨known, choices⟩, fun _ => Iff.rfl⟩
  | cons e rest later =>
    obtain ⟨here, others⟩ := List.forall_mem_cons.mp each
    obtain ⟨m, fits, pending, first⟩ := (choices.perm List.perm_middle :
      s.HasChoices (rest.map Entry.formula ++ e.formula :: g.formulas) n).exists_append
    apply Terms.ensures_bind (assertEntry_ready known here first)
    rintro g' middle grown ⟨ready, means⟩
    have together := (pending.mono grown).append ready.choices
    rw [Nat.add_sub_of_le fits] at together
    apply (later ready.normal (fun e member => (others e member).mono grown) together).imp
    rintro g'' after _ ⟨ready', means'⟩
    refine ⟨ready', fun I => ?_⟩
    have same := I.holdAll_iff grown pending.inside
    have here := means I
    rw [means' I]
    simp only [Interpretation.HoldAll, List.forall_mem_append, List.forall_mem_cons, List.map_cons,
      List.cons_append] at same here ⊢
    rw [same, here, and_left_comm]

/-- What holds of the case of a member. -/
def CaseOf (n : ℕ) (s : Store) (base : Goal) (g' : Goal) (member : TermId) : Prop :=
  g'.Ready n s ∧ Means s g' s (member :: base.formulas)

/-- The case of one member. -/
theorem case_ready {deps : Option DependencySet} {member : TermId} (known : base.WellFormed s)
    (choices : s.HasChoices (member :: base.formulas) n) :
    (case base deps member).Ensures s fun g' after => CaseOf n after base g' member := by
  have asserted : ∀ (proof : Option Proof) (now : Store), s.Extends now →
      (∀ p ∈ proof, p.conclusion = member) →
      (base.assertEntry ⟨member, proof, deps⟩).Ensures now fun g' after =>
        CaseOf n after base g' member := by
    intro proof now grown conclusion
    have choices := choices.mono grown
    have concluded : Entry.Concluded now ⟨member, proof, deps⟩ :=
      ⟨choices.inside _ (List.mem_cons_self ..), conclusion⟩
    apply (assertEntry_ready (known.mono grown) (.inr concluded) choices).imp
    exact fun g' after grown ⟨ready, means⟩ =>
      ⟨ready, fun I => (means I).trans (I.holdAll_iff grown choices.inside).symm⟩
  unfold case
  split
  · have made : (Proof.hypothesis member).Ensures s fun p _ => p.conclusion = member := rfl
    have proved : (some <$> Proof.hypothesis member : Terms (Option Proof)).Ensures s
        fun proof _ => ∀ p ∈ proof, p.conclusion = member := by
      rintro p ⟨⟩
      exact made
    exact Terms.ensures_bind proved fun proof now grown conclusion =>
      asserted proof now grown conclusion
  · exact asserted none s (.refl s) nofun

/-- The cases of all members. -/
theorem cases_ready {deps : Option DependencySet} {members : List TermId}
    (known : base.WellFormed s)
    (choices : ∀ a ∈ members, s.HasChoices (a :: base.formulas) n) :
    (cases .unbounded base deps members).Ensures () s
      (fun goals _ after => List.Forall₂ (CaseOf n after base) goals members)
      fun _ _ _ => False := by
  induction members generalizing s with
  | nil => exact ensures_pure .nil
  | cons member rest later =>
    obtain ⟨here, others⟩ := List.forall_mem_cons.mp choices
    unfold cases
    have checked : (Attempt.check .unbounded : Attempt Unit Unit).Ensures () s
        (fun _ _ after => after = s) fun _ _ _ => False := rfl
    apply ensures_bind checked
    rintro _ _ s _ rfl
    apply ensures_build_bind (case_ready known here)
    intro g' middle grown first
    apply ensures_bind (later (known.mono grown) fun a among => (others a among).mono grown)
    intro goals _ after more all
    refine ensures_pure (.cons ⟨first.1.mono more, fun I => ?_⟩ all)
    have inside := (here.mono grown).inside
    exact (I.holdAll_iff more first.1.choices.inside).trans
      ((first.2 I).trans (I.holdAll_iff more inside).symm)

/-- Some case holds if some member and the rest of the goal do. -/
theorem exists_holdAll_iff {goals : List Goal} {members : List TermId} {I : Interpretation}
    (all : List.Forall₂ (CaseOf n s base) goals members) :
    (∃ g' ∈ goals, I.HoldAll s g'.formulas) ↔
      (∃ a ∈ members, I.holds (s.tree a)) ∧ I.HoldAll s base.formulas := by
  have each : ∀ {g' : Goal} {a : TermId}, CaseOf n s base g' a →
      (I.HoldAll s g'.formulas ↔ I.holds (s.tree a) ∧ I.HoldAll s base.formulas) := fun known =>
    (known.2 I).trans List.forall_mem_cons
  induction all with
  | nil => simp
  | cons first _ rest => simp only [List.exists_mem_cons_iff, each first, rest, or_and_right]

/-- What a case split makes of a goal: cases with fewer choices, and a way to refute the goal if
all of them are refuted. -/
structure Splits (n : ℕ) (s : Store) (g : Goal) (r : TacticResult) : Prop where
  /-- The cases hold together where the goal does. -/
  covers : Covers s g r.goals
  /-- There are at least two cases. -/
  several : 2 ≤ r.goals.length
  /-- What is left of the choices. -/
  ready : ∀ g' ∈ r.goals, g'.Ready n s
  /-- A model of a case is one of the goal. -/
  models : r.models = .identity
  /-- The clause is refuted member by member. -/
  proofs : r.proofs = .identity ∨ ∃ clause proof members,
    r.proofs = .splitClause clause proof ∧ clause < s.size ∧
      s.view clause = (.or, members) ∧ members.length = r.goals.length

/-- What holds of a case split lasts while the store grows. -/
theorem Splits.mono {r : TacticResult} (known : Splits n s g r) (grown : s.Extends after) :
    Splits n after g r where
  covers := known.covers.mono grown
  several := known.several
  ready g' member := (known.ready g' member).mono grown
  models := known.models
  proofs := known.proofs.imp_right fun ⟨clause, proof, members, same, inside, view, long⟩ =>
    ⟨clause, proof, members, same, grown.lt_size inside, (grown.view_eq inside).trans view, long⟩

/-- The formulas of a goal are those of a slot and the others. -/
theorem formulas_perm {slot : ℕ} (there : g.entries[slot]? = some e) :
    (e.formula :: (g.entries.eraseIdx slot).map Entry.formula).Perm g.formulas := by
  obtain ⟨inside, same⟩ := List.getElem?_eq_some_iff.mp there
  have order := (List.getElem_cons_eraseIdx_perm inside).map Entry.formula
  rwa [same, List.map_cons] at order

/-- A case split on a clause of a goal succeeds, and uses up a choice. -/
theorem run_splits {largest : Bool} {slot : ℕ} {members : List TermId} (known : g.Ready n s)
    (found : select? largest s g = some (slot, members)) :
    ∃ m, n = m + 1 ∧ (run largest .unbounded g).Ensures () s
      (fun r _ after => Splits m after g r) fun _ _ _ => False := by
  obtain ⟨e, there, view⟩ := select?_spec found
  have order := formulas_perm there
  have choices := known.choices.perm order
  have inside := choices.inside _ (List.mem_cons_self ..)
  have branching := choices.branching _ (List.mem_cons_self ..)
  obtain ⟨positive, parts⟩ := Store.hasChoices_of_or inside branching view
  obtain ⟨fits, rest⟩ := choices.tail
  refine ⟨n - 1, by omega, ?_⟩
  have two : 2 ≤ members.length := by
    rw [Store.tree_of_view view] at branching
    obtain ⟨members, _⟩ := branching
    simpa using members rfl
  unfold run
  apply ensures_read_bind
  rw [found]
  dsimp only
  rw [there, Option.getD_some]
  have assertable : ∀ d ∈ g.entries.eraseIdx slot, Assertable s d := fun d member =>
    known.normal.assertable (List.mem_of_mem_eraseIdx member)
  have empty : g.cleared.formulas = [] := rfl
  have built := assertAll_ready (n := n - (s.tree e.formula).choices false)
    known.normal.cleared assertable (by rwa [empty, List.append_nil])
  apply ensures_build_bind built
  rintro base middle grown ⟨ready, means⟩
  rw [empty, List.append_nil] at means
  have members_ready : ∀ a ∈ members, middle.HasChoices (a :: base.deeper.formulas) (n - 1) := by
    intro a member
    exact (((parts a member).mono grown).append ready.choices).le (by omega)
  apply ensures_bind (cases_ready ready.normal.deeper members_ready)
  intro goals _ after more all
  refine ensures_pure ⟨⟨?_, ?_, fun I => ?_⟩, ?_, ?_, rfl, ?_⟩
  · exact fun f member => (grown.trans more).lt_size (known.normal.inside f member)
  · intro g' member
    obtain ⟨_, _, ready, _⟩ := exists_of_forall₂ all member
    exact ready.normal
  · have formulas : I.HoldAll after g.formulas ↔
        I.holds (s.tree e.formula) ∧ I.HoldAll middle base.formulas := by
      rw [I.holdAll_iff (grown.trans more) known.normal.inside, means I]
      simp only [Interpretation.HoldAll, ← order.mem_iff, List.forall_mem_cons]
    rw [exists_holdAll_iff all, formulas, Store.tree_of_view view]
    refine and_congr (I.or.trans ?_) (I.holdAll_iff more ready.normal.inside).symm
    simp only [List.mem_map, exists_exists_and_eq_and]
    refine exists_congr fun a => and_congr_right fun member => ?_
    have inside := (parts a member).inside a (List.mem_singleton_self a)
    rw [(grown.trans more).tree_eq inside]
  · rwa [all.length_eq]
  · intro g' member
    obtain ⟨_, _, ready, _⟩ := exists_of_forall₂ all member
    exact ready
  · split
    · next proof _ =>
      exact .inr ⟨e.formula, proof, members, rfl, (grown.trans more).lt_size inside,
        ((grown.trans more).view_eq inside).trans view, all.length_eq.symm⟩
    · exact .inl rfl

/-- There is no clause in a goal without disjunctions. -/
theorem op_ne_of_clauses_nil {formulas : List TermId} {position : ℕ}
    (none : clauses s position formulas = []) : ∀ f ∈ formulas, s.op f ≠ .or := by
  induction formulas generalizing position with
  | nil => nofun
  | cons f rest later =>
    unfold clauses at none
    split at none
    · cases none
    · next other =>
      exact List.forall_mem_cons.mpr ⟨fun head => other (s.args f) (Prod.ext head rfl), later none⟩

/-- No clause is selected only if no formula is a disjunction. -/
theorem op_ne_of_select?_none {largest : Bool} (none : select? largest s g = none) :
    ∀ f ∈ g.formulas, s.op f ≠ .or := by
  unfold select? at none
  split at none
  · next empty => exact op_ne_of_clauses_nil empty
  · cases none

end CaseSplit

namespace ProofConverter

/-- Groups of one refutation each, passed on. -/
theorem run_applyGroups_identity (proofs : List Proof) (s : Store) :
    (applyGroups (List.replicate proofs.length .identity) (List.replicate proofs.length 1)
      proofs).run s = (.ok proofs, s) := by
  induction proofs with
  | nil =>
    simp only [List.length_nil, List.replicate_zero, applyGroups]
    rfl
  | cons p rest later =>
    have first : (apply identity [p]).run s = (.ok p, s) := by rw [apply]; rfl
    rw [List.length_cons, List.replicate_succ, List.replicate_succ, applyGroups,
      if_neg (by simp), Terms.run_bind]
    simp only [List.take_succ_cons, List.take_zero, first, List.drop_succ_cons, List.drop_zero,
      Terms.run_bind, later]
    rfl

/-- Converters that pass a refutation on do so one after the other. -/
theorem ofBranches_identity (k : ℕ) (counts : List ℕ) :
    ofBranches identity (List.replicate k identity) counts = identity := by
  rcases k with _ | _ | k
  · rfl
  · rfl
  · have all : (List.replicate (k + 1 + 1) identity).all isIdentity = true := by simp [isIdentity]
    exact if_pos all

/-- Refuting a clause by refutations of its members. -/
theorem resolve_ensures {clause : TermId} {proof : Proof} {literals : List TermId}
    {proofs : List Proof} (view : s.view clause = (.or, literals))
    (fits : literals.length = proofs.length) :
    (resolve clause proof proofs).Ensures s fun outcome _ =>
      ∃ p, outcome = .ok p ∧ p.conclusion = Store.falseId := by
  unfold resolve
  apply Terms.ensures_read_bind
  rw [view]
  dsimp only
  rw [if_pos fits]
  apply Terms.ensures_bind_of_all
  intro premises after _
  have made : (Proof.make .unitResolution (proof :: premises) Store.falseId).Ensures after
      fun p _ => p.conclusion = Store.falseId := rfl
  exact Terms.ensures_bind made fun p _ _ conclusion => Terms.ensures_pure ⟨p, rfl, conclusion⟩

end ProofConverter

namespace TacticResult

open Goal CaseSplit

/-- Terms with `false` among them are not all true. -/
theorem not_holdAll_of_falseId {terms : List TermId} (I : Interpretation)
    (member : Store.falseId ∈ terms) : ¬I.HoldAll s terms := fun all =>
  Bool.false_ne_true ((I.reading.ofBool s false).2.mp (all _ member))

/-- A goal in normal form with `false` among its formulas holds nothing else. -/
theorem formulas_of_falseId (normal : g.WellFormed s) (member : Store.falseId ∈ g.formulas) :
    g.formulas = [Store.falseId] := by
  cases decided : g.inconsistent with
  | true => exact normal.refuted decided
  | false => exact absurd rfl (normal.flat decided _ member).1

/-- What the repetition of case splits makes of a goal. -/
structure Enumerates (s : Store) (g : Goal) (r : TacticResult) : Prop where
  /-- The cases hold together where the goal does. -/
  covers : Covers s g r.goals
  /-- There is a case. -/
  some : r.goals ≠ []
  /-- A model of a case is one of the goal. -/
  models : r.models = .identity
  /-- No clause is left. -/
  clauseless : ∀ g' ∈ r.goals, ∀ f ∈ g'.formulas, s.op f ≠ .or
  /-- If all cases are refuted there is one only, and its refutation is one of the goal. -/
  refuted : (∀ g' ∈ r.goals, g'.inconsistent = true) → r.goals.length = 1 ∧ r.proofs = .identity

variable {first r : TacticResult} {results : List TacticResult}

/-- Cases are enumerated when the store has grown. -/
theorem Enumerates.mono (known : Enumerates s g r) (grown : s.Extends after) :
    Enumerates after g r where
  covers := known.covers.mono grown
  some := known.some
  models := known.models
  clauseless g' member f inside := by
    rw [grown.op_eq ((known.covers.normal g' member).inside f inside)]
    exact known.clauseless g' member f inside
  refuted := known.refuted

/-- A goal without clauses is its only case. -/
theorem enumerates_single (normal : g.WellFormed s) (clauseless : ∀ f ∈ g.formulas, s.op f ≠ .or) :
    Enumerates s g (single g) where
  covers := ⟨normal.inside, by simpa [single] using normal, by simp [single]⟩
  some := by simp [single]
  models := rfl
  clauseless := by simpa [single] using clauseless
  refuted _ := ⟨rfl, rfl⟩

/-- Cases of cases hold together where the goal does. -/
theorem covers_flatMap {goals : List Goal} (known : Covers s g goals)
    (all : List.Forall₂ (fun g r => Covers s g r.goals) goals results) :
    Covers s g (results.flatMap (·.goals)) := by
  refine ⟨known.inside, fun g' member => ?_, fun I => (known.cases I).trans ⟨?_, ?_⟩⟩
  · obtain ⟨r, among, member⟩ := List.mem_flatMap.mp member
    obtain ⟨_, _, covers⟩ := exists_of_forall₂ all.flip among
    exact covers.normal g' member
  · rintro ⟨g', member, holds⟩
    obtain ⟨r, among, covers⟩ := exists_of_forall₂ all member
    obtain ⟨g'', inside, holds⟩ := (covers.cases I).mp holds
    exact ⟨g'', List.mem_flatMap.mpr ⟨r, among, inside⟩, holds⟩
  · rintro ⟨g'', member, holds⟩
    obtain ⟨r, among, inside⟩ := List.mem_flatMap.mp member
    obtain ⟨g', member, covers⟩ := exists_of_forall₂ all.flip among
    exact ⟨g', member, (covers.cases I).mpr ⟨g'', inside, holds⟩⟩

/-- A case that is satisfied stands for the goal. -/
theorem enumerates_satisfiedAt {final : Goal} {position : ℕ} (known : Splits n s g first)
    (member : g' ∈ first.goals) (found : Enumerates s g' r)
    (satisfied : r.satisfied? g' = Option.some final) :
    Enumerates s g (first.satisfiedAt results position r.models final) := by
  have decided := isDecidedSat_of_satisfied? satisfied
  have empty : final.formulas = [] := by
    rw [formulas, (isDecidedSat_iff.mp decided).1, List.map_nil]
  have among : final ∈ r.goals := by
    unfold satisfied? at satisfied
    split at satisfied
    · rcases shape : r.goals with _ | ⟨h, rest⟩
      · exact absurd shape found.some
      · rw [shape] at satisfied
        obtain rfl : h = final := by simpa using satisfied
        exact List.mem_cons_self ..
    · cases satisfied
  refine ⟨⟨known.covers.inside, ?_, fun I => ?_⟩, by simp [satisfiedAt], ?_, ?_, ?_⟩
  · simpa [satisfiedAt] using found.covers.normal final among
  · have here : I.HoldAll s final.formulas := by
      rw [empty]
      exact List.forall_mem_nil _
    have there := (found.covers.cases I).mpr ⟨final, among, here⟩
    exact iff_of_true ((known.covers.cases I).mpr ⟨g', member, there⟩)
      ⟨final, List.mem_singleton_self final, here⟩
  · rw [satisfiedAt, known.models, found.models]
    rfl
  · simp [satisfiedAt, empty]
  · intro all
    have refuted : final.inconsistent = true := all final (List.mem_singleton_self final)
    rw [(isDecidedSat_iff.mp decided).2] at refuted
    cases refuted

/-- Converters of branches that pass models on do so together. -/
theorem ofBranches_identity (each : ∀ r ∈ results, r.models = .identity) (position : ℕ) :
    ModelConverter.ofBranches .identity (branches position results) = .identity := by
  have all : (branches position results).all (·.child.isIdentity) = true := by
    induction results generalizing position with
    | nil => rfl
    | cons r rest later =>
      obtain ⟨here, others⟩ := List.forall_mem_cons.mp each
      rw [branches, List.all_cons, later others, here]
      rfl
  rw [ModelConverter.ofBranches, all]
  rfl

/-- There are as many results of a function on members of a list as members. -/
theorem length_of_mapM {α β : Type} {f : α → Option β} {as : List α} {bs : List β}
    (found : as.mapM f = Option.some bs) : bs.length = as.length := by
  induction as generalizing bs with
  | nil =>
    obtain rfl : [] = bs := by simpa using found
    rfl
  | cons a rest later =>
    rw [List.mapM_cons] at found
    obtain ⟨b, _, found⟩ := Option.bind_eq_some_iff.mp found
    obtain ⟨others, there, found⟩ := Option.bind_eq_some_iff.mp found
    obtain rfl : b :: others = bs := Option.some.inj found
    rw [List.length_cons, List.length_cons, later there]

/-- Refutations of all cases, of which each result has one, refute the goal. -/
theorem refutation_ensures {template : Goal} (known : Splits n s g first)
    (count : results.length = first.goals.length) (proofs : ∀ r ∈ results, r.proofs = .identity)
    (single : ∀ r ∈ results, r.goals.length = 1) :
    (combinedRefutation (.ofBranches first.proofs (results.map (·.proofs))
      (results.map (·.goals.length))) template (results.flatMap (·.goals))).Ensures s
      fun outcome _ => ∃ proof, outcome = .ok proof ∧ ∀ p ∈ proof, p.conclusion = Store.falseId := by
  have identities : results.map (·.proofs) = List.replicate results.length .identity :=
    List.map_eq_replicate_iff.mpr proofs
  have ones : results.map (·.goals.length) = List.replicate results.length 1 :=
    List.map_eq_replicate_iff.mpr single
  have total : (results.flatMap (·.goals)).length = results.length := by
    rw [List.length_flatMap, ones, List.sum_replicate, smul_eq_mul, Nat.mul_one]
  rw [identities, ones]
  unfold combinedRefutation
  split
  · next refutations found =>
    have fits : refutations.length = results.length := (length_of_mapM found).trans total
    split
    · next asked =>
      rcases known.proofs with identity | ⟨clause, proof, members, split, _, view, long⟩
      · rw [identity, ProofConverter.ofBranches_identity] at asked
        simp [ProofConverter.isIdentity] at asked
      · have combined : ((ProofConverter.ofBranches first.proofs
            (List.replicate results.length .identity) (List.replicate results.length 1)).apply
            refutations).Ensures s fun outcome _ =>
              ∃ p, outcome = .ok p ∧ p.conclusion = Store.falseId := by
          have resolved : (ProofConverter.resolve clause proof refutations).Ensures s _ :=
            ProofConverter.resolve_ensures view (long.trans (count.symm.trans fits.symm))
          rw [split, ← fits]
          show ((ProofConverter.concat (.splitClause clause proof) _ _).apply refutations).Ensures s _
          rw [ProofConverter.apply]
          unfold Terms.Ensures at resolved ⊢
          rw [Terms.run_bind, ProofConverter.run_applyGroups_identity]
          simpa [ProofConverter.isIdentity, ProofConverter.apply] using resolved
        apply Terms.ensures_bind combined
        rintro _ after _ ⟨p, rfl, conclusion⟩
        exact Terms.ensures_pure ⟨p, rfl, by rintro _ ⟨⟩; exact conclusion⟩
    · exact Terms.ensures_pure ⟨none, rfl, nofun⟩
  · exact Terms.ensures_pure ⟨none, rfl, nofun⟩

/-- Cases that are all refuted come down to one refuted goal. -/
theorem collapsed_enumerates {template : Goal} {core : Option DependencySet}
    (known : Splits n s g first)
    (all : List.Forall₂ (fun g r => Enumerates s g r) first.goals results)
    (there : template ∈ results.flatMap (·.goals))
    (refuted : ∀ g' ∈ results.flatMap (·.goals), g'.inconsistent = true) :
    (collapsed (.ofBranches first.proofs (results.map (·.proofs))
      (results.map (·.goals.length))) template (results.flatMap (·.goals))).Ensures s
      fun outcome after => ∃ g', outcome = .ok g' ∧ Enumerates after g { single g' with core } := by
  have covers := covers_flatMap known.covers (all.imp fun _ _ found => found.covers)
  have each : ∀ r ∈ results, r.goals.length = 1 ∧ r.proofs = .identity := by
    intro r member
    obtain ⟨_, _, found⟩ := exists_of_forall₂ all.flip member
    exact found.refuted fun g' inside => refuted g' (List.mem_flatMap.mpr ⟨r, member, inside⟩)
  have normal := covers.normal template there
  unfold collapsed
  apply Terms.ensures_bind (refutation_ensures known all.length_eq.symm
    (fun r member => (each r member).2) fun r member => (each r member).1)
  rintro _ middle grown ⟨proof, rfl, conclusion⟩
  dsimp only
  have concluded : Entry.Concluded middle ⟨Store.falseId, proof,
      (results.flatMap (·.goals)).foldl (fun deps g => DependencySet.join deps g.allDeps) none⟩ :=
    ⟨middle.node_falseId.1, conclusion⟩
  have empty := (normal.mono grown).cleared
  have made := (assertEntry_falseId proof ((results.flatMap (·.goals)).foldl
    (fun deps g => DependencySet.join deps g.allDeps) none) rfl : (template.cleared.assertEntry
      ⟨Store.falseId, proof, _⟩).Ensures middle _)
  apply Terms.ensures_bind ((assertEntry_wellFormed empty concluded).and made)
  rintro g' after more ⟨normal, literal⟩
  have only := formulas_of_falseId normal literal
  have covers := covers.mono (grown.trans more)
  refine Terms.ensures_pure ⟨g', rfl, ⟨covers.inside, ?_, fun I => iff_of_false ?_ ?_⟩, ?_, rfl, ?_,
    fun _ => ⟨rfl, rfl⟩⟩
  · simpa [single] using normal
  · rw [covers.cases I]
    rintro ⟨g'', member, holds⟩
    refine not_holdAll_of_falseId I ?_ holds
    rw [(covers.normal g'' member).refuted (refuted g'' member)]
    exact List.mem_singleton_self _
  · rintro ⟨g'', member, holds⟩
    obtain rfl : g'' = g' := by simpa [single] using member
    exact not_holdAll_of_falseId I literal holds
  · simp [single]
  · intro g'' member f inside head
    obtain rfl : g'' = g' := by simpa [single] using member
    rw [only] at inside
    rw [List.mem_singleton.mp inside, Store.op, after.node_falseId.2] at head
    cases head

/-- The cases of all subgoals, none of which is satisfied, are those of the goal. -/
theorem afterAll_enumerates (known : Splits n s g first)
    (all : List.Forall₂ (fun g r => Enumerates s g r ∧ r.satisfied? g = none) first.goals results) :
    (first.afterAll results).Ensures s fun outcome after =>
      ∃ r, outcome = .ok r ∧ Enumerates after g r := by
  have found : List.Forall₂ (fun g r => Enumerates s g r) first.goals results :=
    all.imp fun _ _ found => found.1
  have each : ∀ r ∈ results, ∃ g', Enumerates s g' r := by
    intro r member
    obtain ⟨g', _, here⟩ := exists_of_forall₂ found.flip member
    exact ⟨g', here⟩
  have covers := covers_flatMap known.covers (found.imp fun _ _ found => found.covers)
  have models : ModelConverter.ofBranches first.models (branches 0 results) = .identity := by
    rw [known.models]
    exact ofBranches_identity (fun r member => (each r member).elim fun _ here => here.models) 0
  unfold afterAll
  dsimp only
  split
  · next template rest shape =>
    split
    · next refuted =>
      have there : template ∈ results.flatMap (·.goals) := by
        rw [shape]
        exact List.mem_cons_self ..
      apply Terms.ensures_bind
        (collapsed_enumerates known found there fun g' member => List.all_eq_true.mp refuted g' member)
      rintro _ after _ ⟨g', rfl, enumerated⟩
      exact Terms.ensures_pure ⟨_, rfl, enumerated⟩
    · next undecided =>
      have some : results.flatMap (·.goals) ≠ [] := by
        rw [shape]
        exact List.cons_ne_nil template rest
      refine Terms.ensures_pure ⟨_, rfl, covers, some, models, fun g' member => ?_, fun refuted => ?_⟩
      · obtain ⟨r, among, inside⟩ := List.mem_flatMap.mp member
        obtain ⟨_, here⟩ := each r among
        exact here.clauseless g' inside
      · exact absurd (List.all_eq_true.mpr refuted) undecided
  · next shape =>
    obtain ⟨r, rest, rfl⟩ : ∃ r rest, results = r :: rest := by
      rcases results with _ | ⟨r, rest⟩
      · have := known.several
        rw [all.length_eq] at this
        exact absurd this (by simp)
      · exact ⟨r, rest, rfl⟩
    obtain ⟨_, here⟩ := each r (List.mem_cons_self ..)
    exact absurd (List.append_eq_nil_iff.mp shape).1 here.some

end TacticResult

namespace Tactic

open TacticResult Goal CaseSplit

/-- The tactic that splits a clause if there is one. -/
def splitOrSkip (largest : Bool) : Tactic := orElse [splitClause largest, skip]

variable {largest : Bool} {r : TacticResult}

/-- A case split of a goal without clauses fails. -/
theorem run_splitClause_none (none : select? largest s g = none) (depth : ℕ) :
    ∃ reason, (applyTo .unbounded (depth + 1) (splitClause largest) g).run s =
      ((.error (.tacticFailed reason), splitClause largest), s) := by
  have stopped : ∃ reason, ((CaseSplit.run largest .unbounded g).runFrom ()).run s =
      ((.error (.tacticFailed reason), ()), s) := by
    rw [CaseSplit.run, Attempt.run_bind, Attempt.run_read]
    dsimp only
    rw [none]
    exact ⟨_, rfl⟩
  obtain ⟨reason, stopped⟩ := stopped
  refine ⟨reason, ?_⟩
  rw [applyTo, Terms.run_bind, stopped]
  rfl

/-- Splitting a clause, or leaving a goal without clauses alone. -/
theorem splitOrSkip_ensures (known : g.Ready n s) (depth : ℕ) :
    (applyTo .unbounded (depth + 2) (splitOrSkip largest) g).Ensures s fun found after =>
      found.2 = splitOrSkip largest ∧
        (found.1 = .ok (.single g) ∧ (∀ f ∈ g.formulas, after.op f ≠ .or) ∨
          ∃ m r, n = m + 1 ∧ found.1 = .ok r ∧ Splits m after g r) := by
  rw [splitOrSkip, applyTo]
  unfold firstOf
  cases selected : select? largest s g with
  | none =>
    obtain ⟨reason, failed⟩ := run_splitClause_none selected depth
    have skipped : (applyTo .unbounded (depth + 1) skip g).run s = _ := run_skip .unbounded depth g s
    unfold Terms.Ensures
    simp only [Terms.run_bind, failed, Error.isTacticException, if_pos, firstOf, skipped]
    exact ⟨rfl, .inl ⟨rfl, op_ne_of_select?_none selected⟩⟩
  | some clause =>
    obtain ⟨slot, members⟩ := clause
    obtain ⟨m, rfl, splits⟩ := run_splits known selected
    obtain ⟨r, _, after, ran, split⟩ := splits.exists_ok
    have ran : (applyTo .unbounded (depth + 1) (splitClause largest) g).run s =
        ((.ok r, splitClause largest), after) := by
      rw [applyTo, Terms.run_bind, ran]
      rfl
    unfold Terms.Ensures
    simp only [Terms.run_bind, ran]
    exact ⟨rfl, .inr ⟨m, r, rfl, rfl, split⟩⟩

/-- Running the repetition on the cases of a case split. -/
theorem sequence_enumerates {σ : Type} {next : Goal → Attempt σ TacticResult} {state : σ}
    (known : Splits n s g r)
    (each : ∀ g' now, g'.Ready n now → (next g').Ensures state now
      (fun r' state' after => Enumerates after g' r' ∧ state' = state) fun _ _ _ => False) :
    (r.sequence .unbounded next).Ensures state s
      (fun r' state' after => Enumerates after g r' ∧ state' = state) fun _ _ _ => False := by
  have several := known.several
  unfold TacticResult.sequence
  split
  · next none =>
    rw [none] at several
    exact absurd several (by simp)
  · next only =>
    rw [only] at several
    exact absurd several (by simp)
  · have checked : ∀ (t : σ) now, t = state → (Attempt.check .unbounded : Attempt σ Unit).Ensures t
        now (fun _ t' after => t' = t ∧ after = now) fun _ _ _ => False := fun _ _ _ => ⟨rfl, rfl⟩
    apply Attempt.ensures_bind (TacticResult.results_ensures (fun g s => g.Ready n s)
      (fun g r s => Enumerates s g r) Goal.Ready.mono Enumerates.mono checked
      (fun g' now _ _ ready same => by rw [same]; exact each g' now ready) 0 known.ready rfl)
    rintro ⟨results, satisfied⟩ _ after grown ⟨rfl, outcome⟩
    have known := known.mono grown
    rcases outcome with ⟨rfl, all⟩ | ⟨done, g', rest, earlier, r', final, shape, _, here, found, same⟩
    · apply Attempt.ensures_build_bind (afterAll_enumerates known all)
      rintro _ last _ ⟨r', rfl, enumerated⟩
      exact Attempt.ensures_pure ⟨enumerated, rfl⟩
    · obtain ⟨rfl, rfl⟩ := Prod.mk.inj same
      have member : g' ∈ r.goals := by
        rw [shape]
        exact List.mem_append_right _ (List.mem_cons_self ..)
      exact Attempt.ensures_pure ⟨enumerates_satisfiedAt known member here found, rfl⟩

/-- A decided goal has no clauses. -/
theorem op_ne_of_isDecided (normal : g.WellFormed s) (decided : g.isDecided = true) :
    ∀ f ∈ g.formulas, s.op f ≠ .or := by
  rcases Bool.or_eq_true_iff.mp decided with satisfied | refuted
  · rw [formulas, (isDecidedSat_iff.mp satisfied).1]
    exact List.forall_mem_nil _
  · rw [normal.refuted refuted]
    intro f member
    rw [List.mem_singleton.mp member, Store.op, s.node_falseId.2]
    simp

/-- The repetition of case splits ends with the cases of a goal. -/
theorem iterateTo_enumerates {depth : ℕ} (known : g.Ready n s) (deep : n + 3 ≤ depth) :
    (iterateTo .unbounded depth none (splitOrSkip largest) g).Ensures s fun found after =>
      found.2 = splitOrSkip largest ∧ ∃ r, found.1 = .ok r ∧ Enumerates after g r := by
  induction n using Nat.strongRecOn generalizing g s depth with | ind n fewer => _
  obtain ⟨depth, rfl⟩ : ∃ d, depth = d + 3 := ⟨depth - 3, by omega⟩
  unfold iterateTo
  apply Terms.ensures_read_bind
  have unbounded : Context.unbounded.check s = .ok () := rfl
  rw [unbounded]
  dsimp only
  split
  · next decided =>
    have decided : g.isDecided = true := by simpa [finished] using decided
    exact Terms.ensures_pure ⟨rfl, _, rfl,
      enumerates_single known.normal (op_ne_of_isDecided known.normal decided)⟩
  · apply Terms.ensures_bind (splitOrSkip_ensures known depth)
    rintro ⟨_, _⟩ middle grown ⟨rfl, ⟨rfl, clauseless⟩ | ⟨m, r, left, rfl, split⟩⟩
    · dsimp only
      rw [if_pos (by simp [unchanged, single])]
      exact Terms.ensures_pure ⟨rfl, _, rfl,
        enumerates_single (known.normal.mono grown) clauseless⟩
    · have changed : unchanged g.formulas r = false := by
        have several := split.several
        unfold unchanged
        split
        · next only =>
          rw [only] at several
          exact absurd several (by simp)
        · rfl
      dsimp only
      rw [if_neg (by rw [changed]; exact Bool.false_ne_true)]
      have inside : ∀ g' now, g'.Ready m now → (Attempt.ofRun fun t =>
          iterateTo .unbounded (depth + 2) none t g').Ensures (splitOrSkip largest) now
          (fun r' t after => Enumerates after g' r' ∧ t = splitOrSkip largest)
          fun _ _ _ => False := by
        intro g' now ready
        apply (fewer m (by omega) ready (by omega : m + 3 ≤ depth + 2)).imp
        rintro ⟨_, _⟩ after _ ⟨rfl, r', rfl, enumerated⟩
        exact ⟨enumerated, rfl⟩
      have rounds := sequence_enumerates split inside
      unfold Attempt.Ensures at rounds
      apply rounds.imp
      rintro ⟨outcome, t⟩ after _ found
      cases outcome with
      | ok r' => exact ⟨found.2, r', rfl, found.1⟩
      | error e => exact found.elim

/-- **Repeated case splits**: where nothing interrupts, splitting clauses until there is none ends
after as many rounds as the goal has choices, so every bound on the depth above that gives the same
result. No model converter comes with it, no formula of a subgoal is a disjunction, and under every
interpretation the goal holds just where some subgoal does. Every goal that is made by operations on
goals is in normal form. -/
theorem iterate_splitOrSkip (largest : Bool) (normal : g.WellFormed s)
    (branching : ∀ f ∈ g.formulas, (s.tree f).Branching) :
    ∃ r after,
      (∀ depth, g.choices s + 4 ≤ depth →
        (applyTo .unbounded depth (iterate (orElse [splitClause largest, skip]) none) g).run s =
          ((.ok r, iterate (orElse [splitClause largest, skip]) none), after)) ∧
      r.models = .identity ∧
      (∀ g' ∈ r.goals, ∀ f ∈ g'.formulas, after.op f ≠ .or) ∧
      ∀ I : Interpretation,
        I.HoldAll s g.formulas ↔ ∃ g' ∈ r.goals, I.HoldAll after g'.formulas := by
  have ready : g.Ready (g.choices s) s := ⟨normal, normal.inside, branching, le_rfl⟩
  have ended : (applyTo .unbounded (g.choices s + 4) (iterate (splitOrSkip largest) none) g).Ensures s
      fun found after => found.2 = iterate (splitOrSkip largest) none ∧
        ∃ r, found.1 = .ok r ∧ Enumerates after g r := by
    rw [applyTo]
    apply Terms.ensures_bind (iterateTo_enumerates ready le_rfl)
    rintro ⟨_, _⟩ after _ ⟨rfl, found⟩
    exact Terms.ensures_pure ⟨rfl, found⟩
  have grown := (applyTo .unbounded (g.choices s + 4) (iterate (splitOrSkip largest) none) g).grows s
  unfold Terms.Ensures at ended
  rcases ran : (applyTo .unbounded (g.choices s + 4) (iterate (splitOrSkip largest) none) g).run s with
    ⟨⟨outcome, t⟩, after⟩
  rw [ran] at ended grown
  obtain ⟨same, r, success, found⟩ := ended
  obtain rfl : t = iterate (splitOrSkip largest) none := same
  obtain rfl : outcome = .ok r := success
  refine ⟨r, after, fun depth deep => ?_, found.models, found.clauseless, fun I => ?_⟩
  · have deeper := applyTo_agrees deep .unbounded (iterate (splitOrSkip largest) none) g s
    rw [ran] at deeper
    exact deeper.resolve_left (by simp)
  · exact (I.holdAll_iff grown normal.inside).symm.trans (found.covers.cases I)

/-- Splitting a clause one of whose members is `true`. -/
theorem iterate_splitOrSkip_case :
    let g := (clauseGoal.run .initial).1
    let s := (clauseGoal.run .initial).2
    (∃ f ∈ g.formulas, s.op f = .or) ∧ ∃ r after,
      (∀ depth, g.choices s + 4 ≤ depth →
        (applyTo .unbounded depth (iterate (orElse [splitClause false, skip]) none) g).run s =
          ((.ok r, iterate (orElse [splitClause false, skip]) none), after)) ∧
      ∀ g' ∈ r.goals, ∀ f ∈ g'.formulas, after.op f ≠ .or := by
  obtain ⟨p, clause, constant, members, shape⟩ := clauseGoal_ensures
  dsimp only
  rw [shape]
  generalize (clauseGoal.run .initial).2 = s at constant members
  have head : s.op clause = .or := congrArg Prod.fst members
  have inside : clause < s.size := Store.lt_size_of_op (by simp [head])
  have tree : (s.tree clause).Branching := by
    rw [Store.tree_of_view members]
    refine .node (fun _ => le_rfl) ?_
    simp only [List.map_cons, List.map_nil, List.forall_mem_cons, Store.tree_of_view constant]
    refine ⟨.leaf (by simp [Op.key]), ?_, List.forall_mem_nil _⟩
    rw [Store.tree_eq, Store.op, Store.args, s.node_trueId.2]
    exact .leaf (by simp [Op.key])
  have normal : WellFormed s { emptyGoal with entries := [⟨clause, none, none⟩] } := by
    have made : Goal.new true false false = .ok emptyGoal := rfl
    refine (WellFormed.of_new made s).of_entries rfl fun e member => ?_
    obtain rfl := List.mem_singleton.mp member
    refine .inr ⟨.inl ⟨?_, ⟨inside, by simp, by simp⟩, ?_, ?_⟩, by simp⟩
    · rintro rfl
      rw [Store.op, s.node_falseId.2] at head
      cases head
    · simp [head]
    · rintro a view
      rw [members] at view
      cases view
  obtain ⟨r, after, ended, -, clauseless, -⟩ := iterate_splitOrSkip false normal
    (by simpa [formulas] using tree)
  exact ⟨⟨clause, List.mem_singleton_self clause, head⟩, r, after, ended, clauseless⟩

end Tactic
end Stratagem
