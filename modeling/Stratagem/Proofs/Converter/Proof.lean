import Stratagem.Converter.Proof
import Stratagem.Proofs.Proof
import Stratagem.Proofs.Steady.Reasoning

/-!
# Combining refutations

A converter combines refutations of cases, each with assumptions of its own, into a refutation with
the assumptions of the goal. The lemmas of a case split discharge the members of the clause, and a
composition hands each converter the refutations of its own cases.
-/
namespace Stratagem.ProofConverter

open Store (Extends)
open Proof (Valid Refutes conclusion)

variable {s after : Store} {given assumed : TermId → Prop} {c parent : ProofConverter}
  {cases : List (TermId → Prop)} {clause : TermId} {proof : Proof} {literals : List TermId}
  {proofs : List Proof}

/-- Every refutation is one with its own assumptions. -/
abbrev RefuteAll (s : Store) (given : TermId → Prop) (proofs : List Proof)
    (cases : List (TermId → Prop)) : Prop :=
  List.Forall₂ (fun p case => p.Refutes s given case) proofs cases

/-- Refutations stay so when the store grows. -/
theorem RefuteAll.mono (known : RefuteAll s given proofs cases) (grown : s.Extends after) :
    RefuteAll after given proofs cases := known.imp fun _ _ refutes => refutes.mono grown

/-- A converter combines refutations of cases into one with some assumptions. -/
def Combines (s : Store) (given assumed : TermId → Prop) (cases : List (TermId → Prop))
    (c : ProofConverter) : Prop :=
  ∀ now, s.Extends now → ∀ proofs, RefuteAll now given proofs cases →
    (c.apply proofs).Ensures now fun outcome last => ∀ p, outcome = .ok p →
      p.Refutes last given assumed

/-- A converter combines refutations also when the store grows. -/
theorem Combines.mono (known : c.Combines s given assumed cases) (grown : s.Extends after) :
    c.Combines after given assumed cases := fun now more => known now (grown.trans more)

/-- The refutation of the only case, with the same assumptions. -/
theorem identity_combines (s : Store) (given assumed : TermId → Prop) :
    identity.Combines s given assumed [assumed] := by
  intro now _ proofs refute
  obtain ⟨p, rest, refutes, none, rfl⟩ := List.forall₂_cons_right_iff.mp refute
  obtain rfl := List.forall₂_nil_right_iff.mp none
  unfold apply
  apply Terms.ensures_pure
  rintro q ⟨⟩
  exact refutes

/-- A converter is the identity if it is seen to be. -/
theorem eq_identity (known : c.isIdentity = true) : c = identity := by
  cases c with
  | identity => rfl
  | _ => cases known

/-- The assumptions of the case of a member of a clause. -/
def assume (assumed : TermId → Prop) (l : TermId) (f : TermId) : Prop := assumed f ∨ f = l

/-- The lemmas refute the literals, one by one, without the hypotheses. -/
theorem lemmas_valid (inside : ∀ l ∈ literals, l < s.size)
    (refute : RefuteAll s given proofs (literals.map (assume assumed))) :
    (lemmas literals proofs).Ensures s fun found after =>
      (∀ p ∈ found, p.Valid after given assumed) ∧
        List.Forall₂ (fun l n => after.view n = (.not, [l])) literals (found.map conclusion) := by
  induction literals generalizing proofs s with
  | nil =>
    obtain rfl := List.forall₂_nil_right_iff.mp refute
    exact Terms.ensures_pure ⟨List.forall_mem_nil _, .nil⟩
  | cons l rest later =>
    obtain ⟨p, others, refutes, tail, rfl⟩ := List.forall₂_cons_right_iff.mp refute
    obtain ⟨here, insideOthers⟩ := List.forall_mem_cons.mp inside
    unfold lemmas
    have there : ∀ a ∈ [l], a < s.size := by simpa using here
    have negated : (Terms.mkNot l).Ensures s _ := Terms.mkApp_node there
    apply Terms.ensures_bind negated
    rintro n middle grown ⟨inside, node⟩
    have view : middle.view n = (.not, [l]) := by rw [Store.view, node]
    apply Terms.ensures_bind
      (Proof.discharge_valid (refutes.mono grown) (fun _ all => all) inside view)
    rintro first next grown' ⟨same, valid⟩
    have grown := grown.trans grown'
    have others : RefuteAll next given others (rest.map (assume assumed)) :=
      RefuteAll.mono tail grown
    apply Terms.ensures_bind (later (grown.all_lt_size insideOthers) others)
    rintro found last more ⟨all, views⟩
    refine Terms.ensures_pure ⟨List.forall_mem_cons.mpr ⟨valid.mono more, all⟩, .cons ?_ views⟩
    rw [same]
    exact (grown'.trans more).view_of view (by simp)

/-- Refuting all members of a clause that has a proof. -/
theorem splitClause_combines (view : s.view clause = (.or, literals))
    (proved : proof.conclusion = clause ∧ proof.Valid s given assumed) :
    (splitClause clause proof).Combines s given assumed (literals.map (assume assumed)) := by
  intro now grown proofs refute
  have view := grown.view_of view (by simp)
  have inside : ∀ l ∈ literals, l < now.size :=
    Store.lt_size_of_view (proved.1 ▸ (proved.2.mono grown).inside) view
  unfold apply resolve
  apply Terms.ensures_read_bind
  rw [view]
  dsimp only
  split
  · apply Terms.ensures_bind (lemmas_valid inside refute)
    rintro premises middle more ⟨valid, negations⟩
    have allowed : middle.Allows .unitResolution ((proof :: premises).map conclusion)
        Store.falseId := by
      refine ⟨rfl, .inr ⟨clause, literals, premises.map conclusion, ?_,
        more.view_of view (by simp), negations⟩⟩
      rw [List.map_cons, proved.1]
    have all : ∀ p ∈ proof :: premises, p.Valid middle given assumed :=
      List.forall_mem_cons.mpr ⟨proved.2.mono (grown.trans more), valid⟩
    apply Terms.ensures_bind (Proof.make_valid middle.node_falseId.1 allowed (by simp) (by simp)
      (by simp) all)
    intro p last _ refutes
    apply Terms.ensures_pure
    rintro q ⟨⟩
    exact refutes
  · exact Terms.ensures_pure (by simp)

/-- A converter with the assumptions of the cases that it combines. -/
abbrev Cased := ProofConverter × List (TermId → Prop)

/-- Converters combine consecutive groups of refutations, each with the assumptions of a case. -/
theorem applyGroups_combines {branches : List Cased}
    (each : List.Forall₂ (fun (b : Cased) case => b.1.Combines s given case b.2) branches cases)
    (refute : RefuteAll s given proofs (branches.flatMap (·.2))) :
    (applyGroups (branches.map (·.1)) (branches.map (·.2.length)) proofs).Ensures s
      fun outcome after => ∀ combined, outcome = .ok combined →
        RefuteAll after given combined cases := by
  induction branches generalizing cases proofs s with
  | nil =>
    obtain rfl := List.forall₂_nil_left_iff.mp each
    unfold List.map applyGroups
    apply Terms.ensures_pure
    rintro combined ⟨⟩
    exact .nil
  | cons b rest later =>
    obtain ⟨case, others, first, tail, rfl⟩ := List.forall₂_cons_left_iff.mp each
    rw [List.flatMap_cons] at refute
    have group := List.forall₂_take_append _ _ _ refute
    have left := List.forall₂_drop_append _ _ _ refute
    rw [List.map_cons, List.map_cons, applyGroups]
    split
    · exact Terms.ensures_pure (by simp)
    · apply Terms.ensures_bind (first s (.refl s) _ group)
      intro outcome middle grown refutes
      cases outcome with
      | error e => exact Terms.ensures_pure (by simp)
      | ok p =>
        have tail := tail.imp fun _ _ combines => Combines.mono combines grown
        apply Terms.ensures_bind (later tail (RefuteAll.mono left grown))
        intro outcome last more refute
        cases outcome with
        | error e => exact Terms.ensures_pure (by simp)
        | ok combined =>
          apply Terms.ensures_pure
          rintro _ ⟨⟩
          exact .cons ((refutes p rfl).mono more) (refute combined rfl)

/-- The composition of a converter with others on its cases. -/
theorem ofBranches_combines {branches : List Cased} (first : parent.Combines s given assumed cases)
    (single : parent.isIdentity = true → cases.length ≤ 1)
    (each : List.Forall₂ (fun (b : Cased) case => b.1.Combines s given case b.2) branches cases) :
    (ofBranches parent (branches.map (·.1)) (branches.map (·.2.length))).Combines s given assumed
      (branches.flatMap (·.2)) := by
  intro now grown proofs refute
  have each := each.imp fun _ _ combines => Combines.mono combines grown
  unfold ofBranches
  split
  · next passes =>
    -- There is at most one case, and what refutes that refutes the goal.
    rcases branches with _ | ⟨b, _ | ⟨b', rest⟩⟩
    · obtain rfl := List.forall₂_nil_right_iff.mp refute
      intro p same
      have same : ((identity.apply []).run now).1 = .ok p := same
      simp [apply] at same
    · obtain ⟨case, _, combines, none, rfl⟩ := List.forall₂_cons_left_iff.mp each
      obtain rfl := List.forall₂_nil_left_iff.mp none
      rw [List.flatMap_cons, List.flatMap_nil, List.append_nil] at refute
      have parent := eq_identity passes
      apply (combines now (.refl now) proofs refute).imp
      intro outcome last more refutes p same
      have passed := first last (grown.trans more) [p] (.cons (refutes p same) .nil)
      rw [parent, apply] at passed
      exact passed p rfl
    · have long := each.length_eq
      have short := single passes
      simp only [List.length_cons] at long
      omega
  · next works =>
    rw [apply]
    apply Terms.ensures_bind (applyGroups_combines each refute)
    intro outcome middle more combined
    cases outcome with
    | error e => exact Terms.ensures_pure (by simp)
    | ok group =>
      dsimp only
      rw [if_neg (by simp [works])]
      exact first middle (grown.trans more) group (combined group rfl)

end Stratagem.ProofConverter
