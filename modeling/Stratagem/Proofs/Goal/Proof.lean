import Stratagem.Proofs.Goal.Operation
import Stratagem.Proofs.Proof

/-!
# Proofs in goals

In a goal that keeps proofs, every formula has a valid proof of it, whatever is done to the goal. A
pass over the goal may leave `true` without a proof in some slots, until the redundant formulas are
dropped.
-/
namespace Stratagem

open Store (Extends)
open Proof (Valid Refutes conclusion)

variable {given assumed more : TermId → Prop} {s after : Store} {f : TermId}
  {proof : Option Proof}

/-- A formula has a valid proof. -/
def Proved (s : Store) (given assumed : TermId → Prop) (f : TermId) (proof : Option Proof) : Prop :=
  ∃ p, proof = some p ∧ p.conclusion = f ∧ p.Valid s given assumed

namespace Proved

/-- A proof stays one when the store grows. -/
theorem mono (known : Proved s given assumed f proof) (grown : s.Extends after) :
    Proved after given assumed f proof := by
  obtain ⟨p, same, conclusion, valid⟩ := known
  exact ⟨p, same, conclusion, valid.mono grown⟩

/-- A proof is one with more assumptions. -/
theorem weaken (known : Proved s given assumed f proof) (all : ∀ f, assumed f → more f) :
    Proved s given more f proof := by
  obtain ⟨p, same, conclusion, valid⟩ := known
  exact ⟨p, same, conclusion, valid.weaken all⟩

/-- A proof in a store that has grown was one before, if it was so with more assumptions. -/
theorem of_extends (known : Proved s given more f proof) (grown : s.Extends after)
    (later : Proved after given assumed f proof) : Proved s given assumed f proof := by
  obtain ⟨p, rfl, conclusion, valid⟩ := known
  obtain ⟨q, same, _, later⟩ := later
  obtain rfl := Option.some.inj same
  exact ⟨p, rfl, conclusion, valid.of_extends grown later⟩

/-- A formula with a proof is in the store. -/
theorem inside (known : Proved s given assumed f proof) : f < s.size := by
  obtain ⟨p, _, rfl, valid⟩ := known
  exact valid.inside

/-- An ordinary step from valid proofs proves what the rule allows. -/
theorem of_make {rule : ProofRule} {premises : List Proof} (inside : f < s.size)
    (allowed : s.Allows rule (premises.map conclusion) f) (asserted : rule = .asserted → given f)
    (hypothesis : rule = .hypothesis → assumed f) (ordinary : rule ≠ .discharge)
    (valid : ∀ p ∈ premises, p.Valid s given assumed) :
    (Proof.make rule premises f).Ensures s fun p after => Proved after given assumed f (some p) :=
  (Proof.make_valid inside allowed asserted hypothesis ordinary valid).imp
    fun p _ _ made => ⟨p, rfl, made⟩

end Proved

namespace Goal

variable {g g' : Goal} {e : Entry} {slot : ℕ}

section Flatten

/-- A part has a proof. -/
abbrev PartProved (s : Store) (given assumed : TermId → Prop) (part : Part) : Prop :=
  Proved s given assumed part.1 part.2

/-- Parts have proofs. -/
def PartsProved (s : Store) (given assumed : TermId → Prop) (parts : List Part) : Prop :=
  ∀ part ∈ parts, PartProved s given assumed part

/-- Parts keep their proofs when the store grows. -/
theorem PartsProved.mono {parts : List Part} (known : PartsProved s given assumed parts)
    (grown : s.Extends after) : PartsProved after given assumed parts :=
  fun part member => (known part member).mono grown

/-- The members that a rule derives from a proved formula have proofs. -/
theorem mapM_derive_proved (rule : ProofRule) {terms : List TermId}
    (known : Proved s given assumed f proof) (inside : ∀ g ∈ terms, g < s.size)
    (allowed : ∀ g ∈ terms, s.Allows rule [f] g) (ordinary : rule ≠ .discharge)
    (other : rule ≠ .asserted ∧ rule ≠ .hypothesis) :
    (terms.mapM (derive rule proof)).Ensures s fun parts after =>
      PartsProved after given assumed parts := by
  obtain ⟨p, rfl, rfl, valid⟩ := known
  have each : (terms.mapM (derive rule (some p))).Ensures s fun parts after =>
      List.Forall₂ (fun _ part => PartProved after given assumed part) terms parts := by
    refine Terms.ensures_mapM (fun _ _ _ _ grown known => known.mono grown) terms ?_
    intro g member now grown
    have made : (Proof.make rule [p] g).Ensures now _ := Proved.of_make
      (grown.lt_size (inside g member)) ((allowed g member).mono grown)
      (fun same => absurd same other.1) (fun same => absurd same other.2) ordinary
      (by simpa using valid.mono grown)
    exact Terms.ensures_bind made fun q last _ proved => Terms.ensures_pure proved
  refine each.imp fun parts after _ related part member => ?_
  obtain ⟨_, _, proved⟩ := exists_of_forall₂ related.flip member
  exact proved

/-- The parts of a proved formula have proofs. -/
theorem split?_proved {part : Part} (known : PartProved s given assumed part) :
    (split? part).Ensures s fun found after => ∀ parts, found = some parts →
      PartsProved after given assumed parts := by
  obtain ⟨f, proof⟩ := part
  have within : ∀ a ∈ s.args f, a < s.size := fun a member =>
    (Store.lt_of_mem_args member).trans known.inside
  have nothing : ∀ parts, some ([] : List Part) = some parts → PartsProved s given assumed parts := by
    rintro parts ⟨⟩
    exact List.forall_mem_nil _
  unfold split?
  apply Terms.ensures_read_bind
  dsimp only
  split
  · exact Terms.ensures_pure nothing
  · next args view =>
    have arguments : s.args f = args := congrArg Prod.snd view
    apply Terms.ensures_bind (mapM_derive_proved .andElim known (arguments ▸ within)
      (fun g member => ⟨f, args, rfl, view, member⟩) (by simp) (by simp))
    intro found after _ proved
    apply Terms.ensures_pure
    rintro parts ⟨⟩
    exact proved
  · next a view =>
    have below : a < s.size := within a (by
      rw [show s.args f = [a] from congrArg Prod.snd view]
      exact List.mem_singleton_self a)
    split
    · exact Terms.ensures_pure nothing
    · next args inner =>
      have arguments : s.args a = args := congrArg Prod.snd inner
      have smaller : ∀ b ∈ args, b < s.size := fun b member =>
        (Store.lt_of_mem_args (arguments ▸ member)).trans below
      apply Terms.ensures_bind (negations_ensures smaller)
      intro negated middle grown negations
      have each : ∀ n ∈ negated, n < middle.size ∧ middle.Allows .notOrElim [f] n := by
        intro n member
        obtain ⟨b, among, inside, negation⟩ := exists_of_forall₂ negations.flip member
        exact ⟨inside, f, a, args, b, rfl, grown.view_of view (by simp),
          grown.view_of inner (by simp), among, negation⟩
      apply Terms.ensures_bind (mapM_derive_proved .notOrElim (known.mono grown)
        (fun n member => (each n member).1) (fun n member => (each n member).2) (by simp) (by simp))
      intro found after _ proved
      apply Terms.ensures_pure
      rintro parts ⟨⟩
      exact proved
    · exact Terms.ensures_pure (by simp)
  · exact Terms.ensures_pure (by simp)

/-- The conjuncts of a proved formula have proofs. -/
theorem conjunctsOnto_proved (depth : ℕ) {found : List Part} {part : Part} {s : Store}
    (before : PartsProved s given assumed found) (known : PartProved s given assumed part) :
    (conjunctsOnto depth found part).Ensures s fun parts after =>
      PartsProved after given assumed parts := by
  induction depth generalizing found part s with
  | zero => exact Terms.ensures_pure (List.forall_mem_cons.mpr ⟨known, before⟩)
  | succ depth deeper =>
    -- The parts are taken apart one after the other.
    have each : ∀ (parts : List Part) {found : List Part} {s : Store},
        PartsProved s given assumed parts → PartsProved s given assumed found →
        (parts.foldlM (conjunctsOnto depth) found).Ensures s fun parts after =>
          PartsProved after given assumed parts := by
      intro parts
      induction parts with
      | nil => exact fun _ before => Terms.ensures_pure before
      | cons part rest tail =>
        intro found s known before
        obtain ⟨first, others⟩ := List.forall_mem_cons.mp known
        rw [List.foldlM_cons]
        apply Terms.ensures_bind (deeper before first)
        exact fun found middle grown proved => tail (PartsProved.mono others grown) proved
    unfold conjunctsOnto
    apply Terms.ensures_bind (split?_proved known)
    intro split middle grown taken
    cases split with
    | none =>
      exact Terms.ensures_pure (List.forall_mem_cons.mpr ⟨known.mono grown, before.mono grown⟩)
    | some parts => exact each parts (taken parts rfl) (before.mono grown)

/-- The conjuncts of a proved formula have proofs. -/
theorem flatten_proved (known : Proved s given assumed f proof) :
    (flatten f proof).Ensures s fun parts after => PartsProved after given assumed parts := by
  have start : PartProved s given assumed (f, proof) := known
  apply Terms.ensures_bind (conjunctsOnto_proved (f + 1) (List.forall_mem_nil _) start)
  exact fun parts after _ proved =>
    Terms.ensures_pure fun part member => proved part (List.mem_reverse.mp member)

/-- There are no conjuncts of `true`. -/
theorem flatten_trueId (proof : Option Proof) :
    (flatten Store.trueId proof).Ensures s fun parts _ => parts = [] := by
  have whole : (split? (Store.trueId, proof)).run s = (some [], s) := by
    unfold split?
    simp only [Terms.run_bind, Terms.run_read, Terms.run_pure, Store.view, s.node_trueId.2]
  unfold Terms.Ensures flatten conjunctsOnto
  simp [whole]

end Flatten
/-- A goal that keeps proofs, each formula of which but `true` has a valid one. -/
structure Drafted (s : Store) (given assumed : TermId → Prop) (g : Goal) : Prop where
  /-- Proofs are kept. -/
  keeps : g.proofs = true
  /-- A refuted goal holds `false` alone. -/
  refuted : g.inconsistent = true → ∃ e, g.entries = [e] ∧ e.formula = Store.falseId
  /-- Formulas have proofs, unless they are `true`. -/
  entries : ∀ e ∈ g.entries, e.formula = Store.trueId ∨ Proved s given assumed e.formula e.proof

/-- A goal that keeps proofs, each formula of which has a valid one. -/
structure Certified (s : Store) (given assumed : TermId → Prop) (g : Goal) : Prop where
  /-- Proofs are kept. -/
  keeps : g.proofs = true
  /-- A refuted goal holds `false` alone. -/
  refuted : g.inconsistent = true → ∃ e, g.entries = [e] ∧ e.formula = Store.falseId
  /-- Formulas have proofs. -/
  entries : ∀ e ∈ g.entries, Proved s given assumed e.formula e.proof

/-- Formulas with proofs stay so when the store grows. -/
theorem Drafted.mono (known : g.Drafted s given assumed) (grown : s.Extends after) :
    g.Drafted after given assumed where
  keeps := known.keeps
  refuted := known.refuted
  entries e member := (known.entries e member).imp id fun proved => proved.mono grown

namespace Certified

/-- A goal all of whose formulas have proofs is one whose formulas but `true` do. -/
theorem drafted (known : g.Certified s given assumed) : g.Drafted s given assumed :=
  ⟨known.keeps, known.refuted, fun e member => .inr (known.entries e member)⟩

/-- Formulas with proofs stay so when the store grows. -/
theorem mono (known : g.Certified s given assumed) (grown : s.Extends after) :
    g.Certified after given assumed :=
  ⟨known.keeps, known.refuted, fun e member => (known.entries e member).mono grown⟩

/-- Formulas with proofs are so with more assumptions. -/
theorem weaken (known : g.Certified s given assumed) (all : ∀ f, assumed f → more f) :
    g.Certified s given more :=
  ⟨known.keeps, known.refuted, fun e member => (known.entries e member).weaken all⟩

/-- Formulas with proofs in a store that has grown had them before, if they had them with more
assumptions. -/
theorem of_extends (known : g.Certified s given more) (grown : s.Extends after)
    (later : g.Certified after given assumed) : g.Certified s given assumed :=
  ⟨known.keeps, known.refuted, fun e member =>
    (known.entries e member).of_extends grown (later.entries e member)⟩

/-- The depth of a goal does not matter for its proofs. -/
theorem deeper (known : g.Certified s given assumed) : g.deeper.Certified s given assumed :=
  ⟨known.keeps, known.refuted, known.entries⟩

/-- A goal without formulas that keeps proofs. -/
theorem of_nil (keeps : g.proofs = true) (consistent : g.inconsistent = false)
    (empty : g.entries = []) : g.Certified s given assumed where
  keeps := keeps
  refuted refuted := by
    rw [consistent] at refuted
    cases refuted
  entries := by
    rw [empty]
    exact List.forall_mem_nil _

/-- A goal that a proof of `false` refutes. -/
theorem of_refuted {deps : Option DependencySet} (keeps : g.proofs = true)
    (proved : Proved s given assumed Store.falseId proof) :
    (g.refuted proof deps).Certified s given assumed where
  keeps := keeps
  refuted _ := ⟨_, rfl, rfl⟩
  entries e member := by
    obtain rfl := List.mem_singleton.mp member
    exact proved

/-- The formula of a refuted goal has a proof. -/
theorem refutation (known : g.Certified s given assumed) (refuted : g.inconsistent = true) :
    ∃ p, g.refutation? = some p ∧ p.Refutes s given assumed := by
  obtain ⟨e, only, literal⟩ := known.refuted refuted
  obtain ⟨p, same, conclusion, valid⟩ := known.entries e (by
    rw [only]
    exact List.mem_singleton_self e)
  refine ⟨p, ?_, conclusion.trans literal, valid⟩
  rw [refutation?, only]
  exact same

end Certified

/-- The entries of proved parts have proofs. -/
theorem PartsProved.entries {parts : List Part} {deps : Option DependencySet}
    (known : PartsProved s given assumed parts) :
    ∀ e ∈ entriesOf parts deps, Proved s given assumed e.formula e.proof := by
  intro e member
  obtain ⟨part, inside, rfl⟩ := List.mem_map.mp member
  exact known part inside

/-- Asserting a formula with its proof. -/
theorem assertEntry_certified (known : g.Certified s given assumed)
    (proved : Proved s given assumed e.formula e.proof) :
    (g.assertEntry e).Ensures s fun g' after => g'.Certified after given assumed := by
  have kept : g.keptProof e.proof = e.proof := if_pos known.keeps
  apply (assertEntry_ensures (kept.symm ▸ flatten_proved proved)).imp
  rintro g' after grown (⟨_, rfl⟩ | ⟨consistent, parts, parted, outcome⟩)
  · exact known.mono grown
  rcases outcome with ⟨part, inside, literal, rfl⟩ | ⟨_, rfl⟩
  · exact .of_refuted known.keeps (literal ▸ parted part inside)
  · refine ⟨known.keeps, fun refuted => ?_, fun d member => ?_⟩
    · rw [show g.inconsistent = true from refuted] at consistent
      cases consistent
    · rcases List.mem_append.mp member with old | new
      · exact (known.entries d old).mono grown
      · exact parted.entries d new

/-- Replacing the formula of a slot by a proved one, or by `true`. In the other slots there are old
formulas and proved ones. -/
theorem update_drafted (known : g.Drafted s given assumed)
    (proved : e.formula = Store.trueId ∨ Proved s given assumed e.formula e.proof) :
    (g.update slot e).Ensures s fun g' after => g'.Drafted after given assumed ∧
      ∀ k d, k ≠ slot → g'.entries[k]? = some d →
        g.entries[k]? = some d ∨ Proved after given assumed d.formula d.proof := by
  have kept : g.keptProof e.proof = e.proof := if_pos known.keeps
  have flattened : (flatten e.formula (g.keptProof e.proof)).Ensures s fun parts after =>
      PartsProved after given assumed parts := by
    rw [kept]
    rcases proved with trivial | proved
    · rw [trivial]
      apply (flatten_trueId e.proof).imp
      rintro parts after _ rfl
      exact List.forall_mem_nil _
    · exact flatten_proved proved
  apply (update_ensures flattened).imp
  rintro g' after grown (⟨_, rfl⟩ | ⟨consistent, parts, parted, outcome⟩)
  · exact ⟨known.mono grown, fun k d _ found => .inl found⟩
  rcases outcome with ⟨part, inside, literal, rfl⟩ | ⟨_, entries, rfl, rfl⟩
  · have result : (g.refuted part.2 (g.keptDeps e.deps)).Certified after given assumed :=
      .of_refuted known.keeps (literal ▸ parted part inside)
    exact ⟨result.drafted, fun k d _ found => .inr (result.entries d (List.mem_of_getElem? found))⟩
  · refine ⟨⟨known.keeps, fun refuted => ?_, fun d member => ?_⟩, fun k d other found => ?_⟩
    · rw [show g.inconsistent = true from refuted] at consistent
      cases consistent
    · obtain ⟨k, found⟩ := List.mem_iff_getElem?.mp member
      rcases placed_cases found with ⟨_, old⟩ | ⟨_, added⟩ | ⟨_, _, rfl⟩
      · exact (known.mono grown).entries d (List.mem_of_getElem? old)
      · exact .inr (parted.entries d added)
      · exact .inl rfl
    · rcases placed_cases found with ⟨_, old⟩ | ⟨_, added⟩ | ⟨same, _, _⟩
      · exact .inl old
      · exact .inr (parted.entries d added)
      · exact absurd same other

/-- What a pass over the slots keeps: formulas but `true` have proofs, and all formulas from a slot
on. -/
structure Passed (s : Store) (given assumed : TermId → Prop) (slot : ℕ) (g : Goal) : Prop where
  /-- Formulas but `true` have proofs. -/
  drafted : g.Drafted s given assumed
  /-- The formulas from the slot on have proofs. -/
  later : ∀ k e, slot ≤ k → g.entries[k]? = some e → Proved s given assumed e.formula e.proof

namespace Passed

/-- What a pass keeps stays when the store grows. -/
theorem mono (known : g.Passed s given assumed slot) (grown : s.Extends after) :
    g.Passed after given assumed slot :=
  ⟨known.drafted.mono grown, fun k e from_ found => (known.later k e from_ found).mono grown⟩

/-- Before a pass all formulas have proofs. -/
theorem start (known : g.Certified s given assumed) : g.Passed s given assumed 0 :=
  ⟨known.drafted, fun _ e _ found => known.entries e (List.mem_of_getElem? found)⟩

/-- A pass leaves the formula of a slot as it is. -/
theorem next (known : g.Passed s given assumed slot) : g.Passed s given assumed (slot + 1) :=
  ⟨known.drafted, fun k e from_ => known.later k e (Nat.le_of_succ_le from_)⟩

/-- A pass replaces the formula of a slot by a proved one. -/
theorem update (known : g.Passed s given assumed slot)
    (proved : Proved s given assumed e.formula e.proof) :
    (g.update slot e).Ensures s fun g' after => g'.Passed after given assumed (slot + 1) := by
  apply (update_drafted known.drafted (.inr proved)).imp
  rintro g' after grown ⟨drafted, others⟩
  refine ⟨drafted, fun k d from_ there => ?_⟩
  rcases others k d (by omega) there with old | proved
  · exact (known.later k d (by omega) old).mono grown
  · exact proved

end Passed

/-- Two formulas with the same atom, one of which is negated. -/
theorem complementary_of_literal {f h : TermId}
    (opposite : s.literal f = ((s.literal h).1, !(s.literal h).2)) :
    s.view f = (.not, [h]) ∨ s.view h = (.not, [f]) := by
  unfold Store.literal at opposite
  split at opposite
  · next a view =>
    split at opposite
    · simp at opposite
    · obtain rfl : a = h := by simpa using congrArg Prod.fst opposite
      exact .inl view
  · split at opposite
    · next a view =>
      obtain rfl : f = a := by simpa using congrArg Prod.fst opposite
      exact .inr view
    · simp at opposite

/-- Dropping redundant formulas leaves proved ones. -/
theorem elimRedundancies_certified (known : g.Drafted s given assumed) :
    g.elimRedundancies.Ensures s fun g' after => g'.Certified after given assumed := by
  apply elimRedundancies_ensures.imp
  rintro g' after grown (⟨refuted, rfl⟩ | ⟨consistent, outcome⟩)
  · refine ⟨known.keeps, known.refuted, fun e member => ?_⟩
    obtain ⟨only, entries, literal⟩ := known.refuted refuted
    refine ((known.mono grown).entries e member).resolve_left fun trivial => ?_
    rw [entries] at member
    obtain rfl := List.mem_singleton.mp member
    exact absurd (literal.symm.trans trivial) (by decide)
  rcases outcome with ⟨proof, earlier, later, ⟨first, nontrivial⟩, ⟨second, other⟩, opposite,
    clashed, rfl⟩ | ⟨kept, old, _, rfl, rfl⟩
  · obtain ⟨p, left, leftConclusion, leftValid⟩ :=
      (known.entries earlier first).resolve_left nontrivial
    obtain ⟨q, right, rightConclusion, rightValid⟩ :=
      (known.entries later second).resolve_left other
    have allowed : s.Allows .unitResolution ([p, q].map conclusion) Store.falseId := by
      rw [List.map_cons, List.map_singleton, leftConclusion, rightConclusion]
      rcases complementary_of_literal opposite with view | view
      · exact ⟨rfl, .inl ⟨_, _, view, .inr rfl⟩⟩
      · exact ⟨rfl, .inl ⟨_, _, view, .inl rfl⟩⟩
    have made : (clash earlier later).Ensures s fun result after =>
        Proved after given assumed Store.falseId result.1 := by
      have step : (Proof.make .unitResolution [p, q] Store.falseId).Ensures s fun r after =>
          Proved after given assumed Store.falseId (some r) :=
        Proved.of_make s.node_falseId.1 allowed (by simp) (by simp) (by simp)
          (by simp [leftValid, rightValid])
      unfold clash
      rw [left, right]
      exact Terms.ensures_bind step fun r after _ proved => Terms.ensures_pure proved
    obtain ⟨rfl, rfl⟩ := clashed
    exact .of_refuted known.keeps made
  · refine ⟨known.keeps, fun refuted => ?_, fun e member => ?_⟩
    · rw [show g.inconsistent = true from refuted] at consistent
      cases consistent
    · exact (known.entries e (old e member).1).resolve_left (old e member).2

end Goal
end Stratagem
