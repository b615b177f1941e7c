import Stratagem.Proofs.Tactic.Simplify

/-!
# Case splits keep what goals say

A case is satisfied only if the goal is. If the formulas of the goal are justified, so are those of
some case: the clause that is split has a true member if what it depends on is taken to hold.
-/
namespace Stratagem

open Store (Extends)
open DependencySet (Covered)

variable {R : Reading} {A : Assumptions} {s after : Store} {g g' base : Goal}
  {deps : Option DependencySet} {p : Bool} {members : List TermId}

/-- The same assumptions, none of which is taken to hold. -/
def Assumptions.idle (A : Assumptions) : Assumptions := { none with tracked := A.tracked }

/-- A justified goal has truth values and tracked dependencies, whatever is taken to hold. -/
theorem Goal.Justified.idle (known : g.Justified R A s) : g.Justified R A.idle s where
  toLawful := known.toLawful
  entries e member := by
    obtain ⟨p, bit, tracked, _⟩ := known.entries e member
    exact ⟨p, bit, tracked, False.elim⟩

/-- A goal that is justified in a store that has grown was so before if it had truth values. -/
theorem Goal.Justified.of_extends (known : g.Justified R A.idle s) (grown : s.Extends after)
    (later : g.Justified R A after) : g.Justified R A s where
  toLawful := known.toLawful
  entries e member := by
    obtain ⟨p, bit, tracked, _⟩ := known.entries e member
    obtain ⟨q, bit', _, holds⟩ := later.entries e member
    obtain rfl := R.unique (R.mono bit grown) bit'
    exact ⟨p, bit, tracked, holds⟩

namespace CaseSplit

open Attempt

/-- The disjunctions that are found stand among the formulas. -/
theorem mem_clauses {clause : Clause} {position : ℕ} {formulas : List TermId}
    (member : clause ∈ clauses s position formulas) :
    ∃ k f, clause.1 = position + k ∧ formulas[k]? = some f ∧ s.view f = (.or, clause.2) := by
  induction formulas generalizing position with
  | nil => cases member
  | cons f rest later =>
    have deeper : clause ∈ clauses s (position + 1) rest →
        ∃ k f', clause.1 = position + k ∧ (f :: rest)[k]? = some f' ∧
          s.view f' = (.or, clause.2) := by
      intro member
      obtain ⟨k, f', place, found, view⟩ := later member
      exact ⟨k + 1, f', by omega, found, view⟩
    unfold clauses at member
    split at member
    · next view =>
      rcases List.mem_cons.mp member with rfl | member
      · exact ⟨0, f, rfl, rfl, view⟩
      · exact deeper member
    · exact deeper member

/-- The larger of two clauses is one of them. -/
theorem foldl_larger_mem (first : Clause) (rest : List Clause) :
    rest.foldl larger first ∈ first :: rest := by
  induction rest generalizing first with
  | nil => exact List.mem_singleton_self first
  | cons next rest later =>
    have either : larger first next = first ∨ larger first next = next := by
      unfold larger
      split
      · exact .inr rfl
      · exact .inl rfl
    have found := later (larger first next)
    rw [List.foldl_cons]
    rcases List.mem_cons.mp found with same | member
    · rw [same]
      rcases either with same | same <;> rw [same] <;> simp
    · exact List.mem_cons_of_mem _ (List.mem_cons_of_mem _ member)

/-- The clause that is split is the disjunction of a slot. -/
theorem select?_spec {largest : Bool} {slot : ℕ}
    (found : select? largest s g = some (slot, members)) :
    ∃ e, g.entries[slot]? = some e ∧ s.view e.formula = (.or, members) := by
  have member : (slot, members) ∈ clauses s 0 g.formulas := by
    unfold select? at found
    split at found
    · cases found
    · next first rest shape =>
      rw [shape, ← Option.some.inj found]
      split
      · exact foldl_larger_mem first rest
      · exact List.mem_cons_self ..
  obtain ⟨k, f, place, there, view⟩ := mem_clauses member
  rw [Nat.zero_add] at place
  obtain rfl : slot = k := place
  rw [Goal.formulas, List.getElem?_map, Option.map_eq_some_iff] at there
  obtain ⟨e, there, rfl⟩ := there
  exact ⟨e, there, view⟩

/-- A member of a list is the one at a position or among the others. -/
theorem mem_of_eraseIdx {α : Type} {xs : List α} {x y : α} {k : ℕ} (found : xs[k]? = some x)
    (member : y ∈ xs) : y = x ∨ y ∈ xs.eraseIdx k := by
  obtain ⟨i, place⟩ := List.mem_iff_getElem?.mp member
  by_cases same : i = k
  · subst same
    exact .inl (Option.some.inj (place.symm.trans found))
  · exact .inr (List.mem_eraseIdx_iff_getElem?.mpr ⟨i, same, place⟩)

/-- Asserting justified entries. The result is satisfied only if the goal is and all entries are
true. -/
theorem assertAll_ensures {entries : List Entry} (known : g.Justified R A s)
    (each : ∀ e ∈ entries, e.Justified R A s) (kept : ∀ e ∈ entries, g.keptDeps e.deps = e.deps) :
    (assertAll g entries).Ensures s fun g' after => g.Alike g' ∧ g'.Justified R A after ∧
      (g'.Satisfied R after →
        g.Satisfied R after ∧ ∀ e ∈ entries, R.Bit after e.formula true) := by
  induction entries generalizing g s with
  | nil => exact Terms.ensures_pure ⟨.refl g, known, fun there => ⟨there, nofun⟩⟩
  | cons e rest later =>
    obtain ⟨here, others⟩ := List.forall_mem_cons.mp each
    obtain ⟨keptHere, keptOthers⟩ := List.forall_mem_cons.mp kept
    obtain ⟨p, bit, tracked, holds⟩ := here
    rw [← keptHere] at tracked holds
    apply Terms.ensures_bind (Goal.assertEntry_justified known bit tracked holds)
    rintro g' middle grown ⟨alike, justified, satisfied⟩
    have kept' : ∀ e ∈ rest, g'.keptDeps e.deps = e.deps := fun e member =>
      (alike.keptDeps_eq _).trans (keptOthers e member)
    apply (later justified (fun e member => (others e member).mono grown) kept').imp
    rintro g'' after more ⟨alike', justified', all⟩
    refine ⟨alike.trans alike', justified', fun there => ?_⟩
    obtain ⟨first, others⟩ := all there
    obtain ⟨start, rfl⟩ := satisfied (justified.satisfied_of_extends more first)
    exact ⟨start.mono more, List.forall_mem_cons.mpr ⟨R.mono bit (grown.trans more), others⟩⟩

/-- What holds of the case of a member with a truth value. -/
structure Case (R : Reading) (A : Assumptions) (base : Goal) (deps : Option DependencySet)
    (s : Store) (g' : Goal) (p : Bool) : Prop where
  /-- The goals produce the same. -/
  alike : base.Alike g'
  /-- All formulas have truth values. -/
  readable : g'.Justified R A.idle s
  /-- The case is justified if the member is. -/
  justified : (A.Active deps → p = true) → g'.Justified R A s
  /-- The case is satisfied only if all other formulas and the member are. -/
  satisfied : g'.Satisfied R s → base.Satisfied R s ∧ p = true

/-- What holds of a case lasts while the store grows. -/
theorem Case.mono (known : Case R A base deps s g' p) (grown : s.Extends after) :
    Case R A base deps after g' p where
  alike := known.alike
  readable := known.readable.mono grown
  justified holds := (known.justified holds).mono grown
  satisfied there := by
    obtain ⟨rest, holds⟩ := known.satisfied (known.readable.satisfied_of_extends grown there)
    exact ⟨rest.mono grown, holds⟩

/-- The case of one member. -/
theorem case_ensures {member : TermId} (known : base.Justified R A s) (bit : R.Bit s member p)
    (tracked : Covered A.tracked deps) (kept : base.keptDeps deps = deps) :
    (case base deps member).Ensures s fun g' after => Case R A base deps after g' p := by
  have asserted : ∀ proof now, s.Extends now → (base.assertEntry ⟨member, proof, deps⟩).Ensures now
      fun g' after => Case R A base deps after g' p := by
    intro proof now grown
    have known := known.mono grown
    have bit := R.mono bit grown
    have readable : (base.assertEntry ⟨member, proof, deps⟩).Ensures now _ :=
      Goal.assertEntry_justified (A := A.idle) known.idle bit (kept.symm ▸ tracked) False.elim
    have justified : (base.assertEntry ⟨member, proof, deps⟩).Ensures now _ :=
      Terms.ensures_forall fun holds : A.Active deps → p = true =>
        Goal.assertEntry_justified known bit (kept.symm ▸ tracked) (kept.symm ▸ holds)
    apply (readable.and justified).imp
    rintro g' after _ ⟨⟨alike, readable, satisfied⟩, justified⟩
    exact ⟨alike, readable, fun holds => (justified holds).2.1, satisfied⟩
  unfold case
  split
  · exact Terms.ensures_bind_of_all fun proof now grown => asserted proof now grown
  · exact asserted none s (.refl s)

variable {context : Context} {ps : List Bool}

/-- The cases of all members. -/
theorem cases_ensures (bits : R.Bits s members ps) (known : base.Justified R A s)
    (tracked : Covered A.tracked deps) (kept : base.keptDeps deps = deps) :
    (cases context base deps members).Ensures () s
      (fun goals _ after => List.Forall₂ (Case R A base deps after) goals ps)
      fun _ _ _ => True := by
  induction members generalizing s ps with
  | nil =>
    cases bits
    exact ensures_pure .nil
  | cons member rest later =>
    rcases bits with _ | ⟨first, others⟩
    unfold cases
    apply ensures_bind (Promise.check_keeps trivial)
    rintro _ _ s _ ⟨_, rfl⟩
    apply ensures_build_bind (case_ensures known first tracked kept)
    intro g' middle grown here
    apply ensures_bind (later (Reading.Bits.mono others grown) (known.mono grown))
    intro goals _ after more all
    exact ensures_pure (.cons (here.mono more) all)

/-- A case split, in any reading: a case is satisfied only if the goal is, some case is justified if
the goal is and there are cases, and there are none only if the clause that is split is empty. -/
theorem run_cases {largest : Bool} (known : g.Justified R A s) :
    (run largest context g).Ensures () s (fun r _ after => r.models = .identity ∧ r.core = none ∧
      (∀ g' ∈ r.goals, g.Follows R A.idle g' after) ∧
      (r.goals = [] → ∃ slot, select? largest s g = some (slot, [])) ∧
      (r.goals ≠ [] → ∃ g' ∈ r.goals, g'.Justified R A after)) fun _ _ _ => True := by
  unfold run
  apply ensures_read_bind
  split
  · exact ensures_throw trivial
  · next slot members found =>
    obtain ⟨e, there, view⟩ := select?_spec found
    have member : e ∈ g.entries := List.mem_of_getElem? there
    obtain ⟨p, bit, tracked, holds⟩ := known.entries e member
    obtain ⟨ps, bits, same⟩ := R.of_or bit view
    have others : ∀ d ∈ g.entries.eraseIdx slot, d ∈ g.entries :=
      fun d inside => List.mem_of_mem_eraseIdx inside
    apply ensures_build_bind (assertAll_ensures (.cleared _ A s g)
      (fun d inside => known.entries d (others d inside))
      fun d inside => known.kept d (others d inside))
    rintro base middle grown ⟨alike, justified, satisfied⟩
    rw [there, Option.getD_some]
    have kept : base.deeper.keptDeps e.deps = e.deps :=
      (alike.keptDeps_eq _).trans (known.kept e member)
    apply ensures_bind (cases_ensures (Reading.Bits.mono bits grown) justified.deeper tracked kept)
    intro goals _ after more all
    refine ensures_pure ⟨rfl, rfl, fun g' inside => ?_, fun none => ?_, fun some => ?_⟩
    · obtain ⟨q, value, result⟩ := exists_of_forall₂ all inside
      have produced : g.Alike g' := ⟨result.alike.models.trans alike.models,
        result.alike.proofs.trans alike.proofs, result.alike.cores.trans alike.cores⟩
      refine ⟨produced, result.readable, fun true d place => ?_⟩
      obtain ⟨rest, rfl⟩ := result.satisfied true
      have before := (satisfied (justified.satisfied_of_extends more rest)).2
      -- The clause has a true member, and all other formulas are those of the base.
      rcases mem_of_eraseIdx there place with rfl | other
      · rw [same, List.any_eq_true.mpr ⟨_, value, rfl⟩] at bit
        exact R.mono bit (grown.trans more)
      · exact R.mono (before d other) more
    · obtain rfl : goals = [] := none
      obtain rfl := List.forall₂_nil_left_iff.mp all
      obtain rfl := List.forall₂_nil_right_iff.mp bits
      exact ⟨slot, found⟩
    · have some : ∃ q ∈ ps, A.Active e.deps → q = true := by
        by_cases active : A.Active e.deps
        · obtain ⟨q, inside, value⟩ := List.any_eq_true.mp (same ▸ holds active)
          exact ⟨q, inside, fun _ => value⟩
        · obtain ⟨q, inside⟩ := List.exists_mem_of_length_pos (l := ps) (by
            rw [← all.length_eq]
            exact List.length_pos_iff.mpr some)
          exact ⟨q, inside, fun active' => absurd active' active⟩
      obtain ⟨q, inside, value⟩ := some
      obtain ⟨g', member, result⟩ := exists_of_forall₂ all.flip inside
      exact ⟨g', member, result.justified value⟩

/-- A case split: some case is justified if the goal is, and a case is satisfied only if the goal
is. -/
theorem run_ensures {Γ : Signature} {I : Assignment} {largest : Bool}
    (known : g.Justified (I.reading Γ) A s) :
    (run largest context g).Ensures () s (fun r _ after => r.models = .identity ∧ r.core = none ∧
      (∀ g' ∈ r.goals, g.Follows (I.reading Γ) A.idle g' after) ∧
      ∃ g' ∈ r.goals, g'.Justified (I.reading Γ) A after) fun _ _ _ => True := by
  refine (run_cases known).imp (fun r _ after _ found => ?_) fun _ _ _ _ _ => trivial
  obtain ⟨models, core, follows, none, some⟩ := found
  refine ⟨models, core, follows, some fun empty => ?_⟩
  -- A clause with a meaning over numbers has two members at least.
  obtain ⟨slot, selected⟩ := none empty
  obtain ⟨e, there, view⟩ := select?_spec selected
  obtain ⟨p, bit, _⟩ := known.entries e (List.mem_of_getElem? there)
  have long : 2 ≤ ([] : List TermId).length := (bit.of_view view).1.2.1
  exact absurd long (by simp)

end CaseSplit
end Stratagem
