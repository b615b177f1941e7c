import Stratagem.Proofs.Rewriting.Memory
import Stratagem.Proofs.Word.Rule

/-!
# The simplifier keeps the value of terms over bit-vectors

A term whose arguments are replaced by terms of the same sorts and values is well-sorted, narrow
throughout and of the same value still, and the rules keep sort and value. So every visit does, and
a simplified term has the sort of the term and its value under every assignment; its literals are
reduced.
-/
namespace Stratagem

open Store (Extends)
open Terms Rule

variable {s after : Store} {K : Constants} {I : BitAssignment} {config : SimplifierConfig}
  {t u : TermId} {sort : TermSort} {d : Datum} {args : List TermId}

/-- Rebuilding a term with arguments of the same sorts and values keeps its sort and value. -/
theorem Terms.rebuild_carries (known : s.Carries K I t sort d)
    (each : List.Forall₂ (fun u a => s.Carries K I u (s.sortOf a) (s.datum I a)) args (s.args t)) :
    (rebuild t args).Ensures s fun u after => after.Carries K I u sort d := by
  obtain ⟨fits, _, value⟩ := known.of_view rfl
  have fits := Store.BitFits.replace fits (each.imp fun _ _ found => found.sort_eq)
  unfold rebuild
  refine ensures_read_bind ?_
  dsimp only
  split
  · exact ensures_pure known
  next different =>
  split
  · next own =>
    exact absurd own (Bool.eq_false_iff.mp fits.hasOwnSort_eq)
  · obtain ⟨a, rest, rfl⟩ : ∃ a rest, args = a :: rest := by
      cases args with
      | nil =>
        have none : s.args t = [] := List.forall₂_nil_left_iff.mp each
        exact absurd none different
      | cons a rest => exact ⟨a, rest, rfl⟩
    obtain ⟨compound, other⟩ := fits.of_cons
    refine mkApp_carries fits (fun b member => ?_) (fits.inferSort_eq other known.width) known.width
      compound ?_
    · obtain ⟨_, _, found⟩ := exists_of_forall₂ each member
      exact ⟨_, _, found⟩
    · have same : (a :: rest).map (s.datum I) = (s.args t).map (s.datum I) := by
        rw [← List.forall₂_eq_eq_eq, List.forall₂_map_left_iff, List.forall₂_map_right_iff]
        exact each.imp fun _ _ found => found.datum_eq
      rw [same, value]
      rfl

namespace Rewriting

variable {levels limit : ℕ} {depth : Option ℕ}

/-- Terms that are visited one after the other keep their sorts and values if each visit keeps
them. -/
theorem InTurn.carries {visits : Store → TermId → TermId → Store → Prop}
    {terms results : List TermId} (known : InTurn visits s terms results after)
    (each : ∀ s t u after, visits s t u after → s.Extends after ∧
      ∀ sort d, s.Carries K I t sort d → after.Carries K I u sort d)
    {values : List (TermSort × Datum)}
    (carry : List.Forall₂ (fun t v => s.Carries K I t v.1 v.2) terms values) :
    List.Forall₂ (fun u v => after.Carries K I u v.1 v.2) results values := by
  induction known generalizing values with
  | nil => cases carry with | nil => exact .nil
  | cons first others rest =>
    cases carry with
    | cons here later =>
      obtain ⟨grown, keeps⟩ := each _ _ _ _ first
      have more := others.grown fun s t u after known => (each s t u after known).1
      exact .cons ((keeps _ _ here).mono more) (rest (later.imp fun _ _ found => found.mono grown))

/-- A visit keeps the sort and the value of a term. -/
theorem Visits.carries (known : Visits config levels depth s t u after)
    (carries : s.Carries K I t sort d) : after.Carries K I u sort d := by
  induction levels generalizing depth s t u after sort d with
  | zero => exact known.elim
  | succ levels lower =>
    rw [Visits] at known
    split at known
    · obtain ⟨rfl, rfl⟩ := known
      exact carries
    obtain ⟨inside, _, args, first, t', second, outcome, third, visited, rebuilt, reduced,
      finished⟩ := known
    have toFirst := visited.grown fun _ _ _ _ => Visits.grown
    have arguments : List.Forall₂ (fun a v => s.Carries K I a v.1 v.2) (s.args t)
        ((s.args t).map fun a => (s.sortOf a, s.datum I a)) :=
      List.forall₂_map_right_iff.mpr (List.forall₂_same.mpr (carries.of_view rfl).2.1)
    have values : (s.args t).map (fun a => (s.sortOf a, s.datum I a)) =
        (first.args t).map fun a => (first.sortOf a, first.datum I a) := by
      rw [toFirst.args_eq inside]
      refine List.map_congr_left fun a member => ?_
      have argument := (Store.lt_of_mem_args member).trans inside
      rw [toFirst.sortOf_eq argument, toFirst.datum_eq I argument]
    have replaced := visited.carries (fun _ _ _ _ known => ⟨known.grown, fun _ _ => lower known⟩)
      arguments
    rw [values] at replaced
    -- Every part leaves the nodes of the store that it leads to.
    obtain ⟨now, nodes, here⟩ := rebuilt.leads.exists_of_ensures
      (rebuild_carries (carries.mono toFirst) (List.forall₂_map_right_iff.mp replaced))
    have here := here.mono (Extends.of_nodes_eq nodes.symm)
    obtain ⟨now, nodes, answers⟩ := reduced.leads.exists_of_ensures (reduce_answers here)
    have answered {r : TermId} (result : outcome.result? = some r) : third.Carries K I r sort d :=
      Store.Carries.mono (answers r result) (Extends.of_nodes_eq nodes.symm)
    cases outcome with
    | failed =>
      obtain ⟨rfl, rfl⟩ := finished
      exact here.mono reduced.grown
    | done =>
      obtain ⟨rfl, rfl⟩ := finished
      exact answered rfl
    | revisit | revisitAll => exact lower finished (answered rfl)

/-- A simplified term over booleans and bit-vectors has the sort of the term and its value under
every assignment, whatever the simplifier did before; its widths are machine words and its literals
are reduced still. -/
theorem simplify_keeps_words {r r' : Simplifier} {context : Context} (reachable : r.Reachable s)
    (sorted : s.BitSorted K t) (narrow : s.Throughout s.Narrow t)
    (run : ((simplifyWithin context limit t).runFrom r).run s = ((.ok u, r'), after)) :
    after.BitSorted K u ∧ after.Throughout after.Narrow u ∧ after.sortOf u = s.sortOf t ∧
      ∀ I, after.datum I u = s.datum I t := by
  have ensured : (simplifyWithin context limit t).Ensures r s _ _ :=
    simplifyWithin_visits (recalls_of_reachable reachable)
  obtain ⟨_, _, levels, visits⟩ := ensured.of_ok run
  have carries (I : BitAssignment) : after.Carries K I u (s.sortOf t) (s.datum I t) :=
    visits.carries ⟨⟨sorted, rfl, rfl⟩, narrow⟩
  have known := carries ⟨fun _ => false, fun _ _ => 0⟩
  exact ⟨known.sorted, known.narrow, known.sort_eq, fun I => (carries I).datum_eq⟩

/-- The sum of the literals 255 and 1 of eight bits is simplified to a term of eight bits with the
value zero. -/
theorem simplify_keeps_words_case :
    let work := do
      let a ← mkBitVec 255 8
      let b ← mkBitVec 1 8
      mkApp .bvAdd [a, b]
    let t := (work.run .initial).1
    let s := (work.run .initial).2
    ∃ limit u r' after, s.BitSorted .all t ∧ s.Throughout s.Narrow t ∧
      ((simplifyWithin .unbounded limit t).runFrom {}).run s = ((.ok u, r'), after) ∧
      after.Throughout after.Narrow u ∧ after.sortOf u = .bitVec 8 ∧
      ∀ I, after.datum I u = .word 8 0 := by
  have built : (do
      let a ← mkBitVec 255 8
      let b ← mkBitVec 1 8
      mkApp .bvAdd [a, b] : Terms TermId).Ensures .initial fun t s =>
        (∃ a b, s.nodes[t]? = some ⟨.bvAdd, [a, b], .bitVec 8⟩ ∧ s.Literal (.word 8 255) a ∧
          s.Literal (.word 8 1) b) ∧ ∀ I, s.Carries .all I t (.bitVec 8) (.word 8 0) := by
    refine Terms.ensures_bind (BitVector.mkBitVec_literal rfl) fun a first _ left => ?_
    refine Terms.ensures_bind (BitVector.mkBitVec_literal rfl) fun b second grown right => ?_
    have left := left.mono grown
    have same : second.inferSort .bvAdd [a, b] = .bitVec 8 := left.sort
    have node : (mkApp .bvAdd [a, b]).Ensures second fun t after =>
        after.nodes[t]? = some ⟨.bvAdd, [a, b], .bitVec 8⟩ :=
      mkApp_getElem? (by simp [left.inside, right.inside]) same
    refine (node.and (Terms.ensures_forall fun I => ?_)).imp fun t after more found =>
      ⟨⟨a, b, found.1, left.mono more, right.mono more⟩, found.2⟩
    have first : second.Carries .all I a (.bitVec 8) (.word 8 255) :=
      carries_of_literal left.inside left.node (by decide)
    have other : second.Carries .all I b (.bitVec 8) (.word 8 1) :=
      carries_of_literal right.inside right.node (by decide)
    refine mkApp_carries ⟨8, rfl, left.sort, right.sort⟩ ?_ same ?_ rfl ?_
    · simpa using ⟨⟨_, _, first⟩, _, _, other⟩
    · rintro _ ⟨⟩
      decide
    · simp [Op.compute, first.datum_eq, other.datum_eq]
  intro work t s
  change (∃ a b, s.nodes[t]? = _ ∧ s.Literal _ a ∧ s.Literal _ b) ∧
    ∀ I, s.Carries .all I t _ _ at built
  generalize t = t, s = s at built ⊢
  obtain ⟨⟨a, b, node, left, right⟩, carries⟩ := built
  have known := carries ⟨fun _ => false, fun _ _ => 0⟩
  have literals : ∀ u ∈ [a, b], s.isValue u = true := by simp [left.isValue, right.isValue]
  have ruled : (reduce t).Ensures {} s fun o _ => ∃ u, o = .done u ∧ True := by
    refine (reduce_bitwise rfl (known.applies (view_of_getElem? node) rfl literals)).imp ?_
    rintro o after _ ⟨u, rfl, _⟩
    exact ⟨u, rfl, trivial⟩
  have atom {v : Scalar} {u : TermId} (literal : s.Literal v u) : Atomic s u :=
    ⟨literal.inside, by rw [Store.op, literal.node]; exact v.isAtom_literal,
      by rw [Store.args, literal.node, Scalar.literal_args]⟩
  have atomic : ∀ u ∈ [a, b], Atomic s u := by simp [atom left, atom right]
  obtain ⟨u, r', after, run, _⟩ := (simplify_leaves node atomic (by simp) ruled).exists_ok
  have run := run_simplify {} s t ▸ run
  obtain ⟨_, narrow, same, value⟩ :=
    simplify_keeps_words (.start {} s) known.sorted known.narrow run
  refine ⟨_, u, r', after, known.sorted, known.narrow, run, narrow, ?_, fun I => ?_⟩
  · rw [same, known.sort_eq]
  · rw [value, (carries I).datum_eq]

end Rewriting
end Stratagem
