import Stratagem.Proofs.Goal
import Stratagem.Proofs.Rewriting.Simplifier
import Stratagem.Proofs.Tactic.Apply
import Stratagem.Proofs.Term.Truth

/-!
# Simplification keeps what goals say

Every formula of a goal is replaced by one with the same truth value. So the simplified goal is
justified if the goal is, and satisfied only if the goal is.
-/
namespace Stratagem

open Store (Extends)

variable {R : Reading} {A : Assumptions} {s after : Store} {g g' : Goal}

/-- A goal follows from another one: it is to produce the same, it is justified, and it is satisfied
only if the other one is. -/
structure Goal.Follows (R : Reading) (A : Assumptions) (g g' : Goal) (s : Store) : Prop where
  /-- The goals produce the same. -/
  alike : g.Alike g'
  /-- The goal is justified. -/
  justified : g'.Justified R A s
  /-- The goal is satisfied only if the other one is. -/
  satisfied : g'.Satisfied R s → g.Satisfied R s

namespace Goal.Follows

/-- A justified goal follows from itself. -/
theorem refl (known : g.Justified R A s) : g.Follows R A g s := ⟨.refl g, known, id⟩

/-- A goal follows from another one also when the store grows. -/
theorem mono (known : g.Follows R A g' s) (grown : s.Extends after) : g.Follows R A g' after where
  alike := known.alike
  justified := known.justified.mono grown
  satisfied there :=
    (known.satisfied (known.justified.satisfied_of_extends grown there)).mono grown

/-- What follows from a goal that follows from another one follows from that one. -/
theorem trans {g'' : Goal} (first : g.Follows R A g' s) (second : g'.Follows R A g'' s) :
    g.Follows R A g'' s where
  alike := first.alike.trans second.alike
  justified := second.justified
  satisfied there := first.satisfied (second.satisfied there)

/-- The depth of a goal says nothing. -/
theorem deeper (known : g.Follows R A g' s) : g.Follows R A g'.deeper s :=
  ⟨⟨known.alike.models, known.alike.proofs, known.alike.cores⟩, known.justified.deeper,
    known.satisfied⟩

end Goal.Follows

namespace Goal

/-- The goal without redundant formulas follows from the goal. -/
theorem elimRedundancies_follows (known : g.Justified R A s) :
    g.elimRedundancies.Ensures s (g.Follows R A) :=
  (elimRedundancies_justified known).imp fun _ _ _ result => ⟨result.1, result.2.1, result.2.2⟩

/-- The goal with a formula of the same truth value in a slot follows from the goal. -/
theorem update_follows {slot : ℕ} {e e' : Entry} {p : Bool} (known : g.Justified R A s)
    (found : g.entries[slot]? = some e) (before : R.Bit s e.formula p)
    (now : R.Bit s e'.formula p) (deps : e'.deps = e.deps) :
    (g.update slot e').Ensures s (g.Follows R A) := by
  have member : e ∈ g.entries := List.mem_of_getElem? found
  have kept : g.keptDeps e'.deps = e.deps := by rw [deps, known.kept e member]
  obtain ⟨q, bit, tracked, holds⟩ := known.entries e member
  obtain rfl := R.unique before bit
  rw [← kept] at tracked holds
  apply (update_justified known (List.getElem?_eq_some_iff.mp found).1 now tracked holds).imp
  rintro g' after grown ⟨alike, justified, satisfied⟩
  refine ⟨alike, justified, fun there d inside => ?_⟩
  obtain ⟨rfl, others⟩ := satisfied there
  obtain ⟨k, place⟩ := List.mem_iff_getElem?.mp inside
  by_cases here : k = slot
  · subst here
    obtain rfl := Option.some.inj (found.symm.trans place)
    exact R.mono before grown
  · exact others k d here place

end Goal

variable {Γ : Signature} {I : Assignment} {r : Simplifier} {context : Context} {t u : TermId}

/-- A replacement of a formula has its truth value. -/
theorem Store.Replaces.formula {p : Prop} (known : s.Replaces Γ.strict u t)
    (formula : s.Formula Γ I t p) : s.Formula Γ I u p where
  sorted := known.sorted.mono_within (.refl s) Γ.strict_within
  sort_eq := known.sort_eq.trans formula.sort_eq
  value_eq := (known.value_eq I).trans formula.value_eq

/-- Simplifying a term in some circumstances gives a replacement of the term. -/
theorem Rewriting.simplifyIn_ensures (sound : r.Sound s) :
    (simplifyIn context t).Ensures r s
      (fun u r' after => r'.Sound after ∧ ∀ Γ, s.WellSorted Γ t → after.Replaces Γ.strict u t)
      fun _ _ _ => True := by
  unfold simplifyIn
  apply Attempt.ensures_get_bind
  exact (simplifyWithin_ensures sound).imp (fun _ _ _ _ result => result) fun _ _ _ _ _ => trivial

/-- The result of simplifying a term with a proof replaces the term. -/
theorem Rewriting.simplifyWithProof_ensures (sound : r.Sound s) :
    (simplifyWithProof context t).Ensures r s (fun found r' after => r'.Sound after ∧
      ∀ Γ, s.WellSorted Γ t → after.Replaces Γ.strict found.1 t) fun _ _ _ => True := by
  unfold simplifyWithProof
  apply Attempt.ensures_bind (simplifyIn_ensures sound)
  rintro u r' middle _ ⟨sound, replaces⟩
  split
  · exact Attempt.ensures_pure ⟨sound, replaces⟩
  · apply Attempt.ensures_build_bind_of_all
    intro proof after grown
    exact Attempt.ensures_pure ⟨sound.mono grown, fun Γ sorted => (replaces Γ sorted).mono grown⟩

namespace Simplify

open Attempt

/-- The new formula of an entry replaces the old one. -/
theorem simplifyEntry_ensures {e : Entry} (sound : r.Sound s) :
    (simplifyEntry context g e).Ensures r s (fun e' r' after => r'.Sound after ∧
      e'.deps = e.deps ∧ ∀ Γ, s.WellSorted Γ e.formula → after.Replaces Γ.strict e'.formula e.formula)
      fun _ _ _ => True := by
  unfold simplifyEntry
  split
  · apply ensures_bind (Rewriting.simplifyWithProof_ensures sound)
    rintro ⟨f, equation⟩ r' middle _ ⟨sound, replaces⟩
    dsimp only
    split
    · apply ensures_build_bind_of_all
      intro proof after grown
      exact ensures_pure ⟨sound.mono grown, rfl, fun Γ sorted => (replaces Γ sorted).mono grown⟩
    · exact ensures_pure ⟨sound, rfl, replaces⟩
  · apply ensures_bind (Rewriting.simplifyIn_ensures sound)
    rintro f r' after _ ⟨sound, replaces⟩
    exact ensures_pure ⟨sound, rfl, replaces⟩

/-- The goal with the formula of a slot simplified follows from the goal. -/
theorem visit_ensures {slot : ℕ} {e : Entry} (known : g'.Follows (I.reading Γ) A g s)
    (sound : r.Sound s) (found : g.entries[slot]? = some e) :
    (visit context slot e g).Ensures r s
      (fun g'' r' after => r'.Sound after ∧ g'.Follows (I.reading Γ) A g'' after)
      fun _ _ _ => True := by
  obtain ⟨p, bit, _⟩ := known.justified.entries e (List.mem_of_getElem? found)
  unfold visit
  apply ensures_bind (simplifyEntry_ensures sound)
  rintro e' r' middle grown ⟨sound, deps, replaces⟩
  have later := known.mono grown
  have before := bit.mono grown
  have now := (replaces Γ bit.sorted).formula before
  have checked : ∀ (g'' : Goal) (r'' : Simplifier) (now : Store), r''.Sound now →
      g'.Follows (I.reading Γ) A g'' now → (do
        Attempt.check context
        return g'' : Rewriting Goal).Ensures r'' now
        (fun g'' r' after => r'.Sound after ∧ g'.Follows (I.reading Γ) A g'' after)
        fun _ _ _ => True := by
    intro g'' r'' now sound follows
    apply ensures_bind (Promise.check_keeps trivial)
    rintro _ _ _ _ ⟨rfl, rfl⟩
    exact ensures_pure ⟨sound, follows⟩
  split
  · exact checked g r' middle sound later
  · apply ensures_build_bind (Goal.update_follows later.justified found before now deps)
    exact fun g'' after more follows =>
      checked g'' r' after (sound.mono more) ((later.mono more).trans follows)

/-- The simplified goal follows from the goal. -/
theorem run_ensures (known : g.Justified (I.reading Γ) A s) :
    (run context g).Ensures r s (fun result _ after =>
      ∃ g', result = .single g' ∧ g.Follows (I.reading Γ) A g' after) fun _ _ _ => True := by
  unfold run
  apply ensures_modify_bind
  have sound : r.reset.Sound s := Simplifier.sound_of_empty rfl
  have all : (simplifyAll context g).Ensures r.reset s
      (fun g' _ after => g.Follows (I.reading Γ) A g' after) fun _ _ _ => True := by
    apply ensures_bind (Goal.visitAll_ensures
      (P := fun _ g' r' now => r'.Sound now ∧ g.Follows (I.reading Γ) A g' now)
      (fun slot e g' r' now known found _ => visit_ensures known.2 known.1 found)
      (fun _ _ _ _ _ => trivial) ⟨sound, .refl known⟩)
    rintro g' r' middle _ ⟨_, ⟨_, follows⟩, _⟩
    have reduced : (Attempt.build g'.elimRedundancies : Rewriting Goal).Ensures r' middle
        (fun g'' state after => state = r' ∧ g'.Follows (I.reading Γ) A g'' after)
        fun _ _ _ => True :=
      ensures_build (Goal.elimRedundancies_follows follows.justified)
    apply reduced.imp
    · exact fun g'' _ after more result => (follows.mono more).trans result.2
    · exact fun _ _ _ _ _ => trivial
  split
  · exact ensures_pure ⟨g.deeper, rfl, (Goal.Follows.refl known).deeper⟩
  · apply ensures_bind all
    exact fun g' _ after _ follows => ensures_pure ⟨g'.deeper, rfl, follows.deeper⟩

end Simplify
end Stratagem
