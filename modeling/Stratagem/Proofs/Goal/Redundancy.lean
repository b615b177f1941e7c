import Stratagem.Proofs.Goal.Operation

/-!
# What dropping redundant formulas leaves

A formula is kept under its atom, and no atom is kept twice: the same formula again is dropped, and
the other sign of the atom refutes the goal. So nothing is left twice, and a goal is refuted exactly
when it has a formula beside its negation. The atom of a formula is found below its outermost
negation only. A formula that is a negation itself has an atom of its own, other than the atom of
its negation, so it may be left beside its negation.
-/
namespace Stratagem

variable {s after : Store} {g : Goal} {f n a : TermId}

namespace Store

/-- A formula is the negation of another one. -/
def Negates (s : Store) (n f : TermId) : Prop := s.view n = (.not, [f])

/-- A formula is the negation of some formula. -/
def IsNegation (s : Store) (f : TermId) : Prop := ∃ a, s.Negates f a

/-- A formula that is no negation is its own atom. -/
theorem literal_of_not_isNegation (plain : ¬s.IsNegation f) : s.literal f = (f, false) := by
  unfold literal
  split
  · next a view => exact absurd ⟨a, view⟩ plain
  · rfl

/-- A formula with a negative sign is the negation of its atom. -/
theorem negates_of_literal (negative : s.literal n = (a, true)) : s.Negates n a := by
  unfold literal at negative
  split at negative
  · next b view => exact (Prod.mk.inj negative).1 ▸ view
  · exact nomatch (Prod.mk.inj negative).2

/-- A formula with a positive sign is its own atom and no negation. -/
theorem not_isNegation_of_literal (positive : s.literal f = (a, false)) :
    f = a ∧ ¬s.IsNegation f := by
  by_cases negation : s.IsNegation f
  · obtain ⟨b, view⟩ := negation
    rw [literal_of_not view] at positive
    exact nomatch (Prod.mk.inj positive).2
  · rw [literal_of_not_isNegation negation] at positive
    exact ⟨(Prod.mk.inj positive).1, negation⟩

end Store

namespace Goal

/-- The atoms of entries. -/
def atoms (s : Store) (entries : List Entry) : List TermId :=
  entries.map fun e => (s.literal e.formula).1

/-- Keeping new formulas adds some of them at the end, and keeps no atom twice. -/
theorem distinctEntries_atoms {entries : List Entry} {kept result : Array Entry}
    (run : distinctEntries s kept entries = .ok result)
    (distinct : (atoms s kept.toList).Nodup) :
    (atoms s result.toList).Nodup ∧
      ∃ new : List Entry, result.toList = kept.toList ++ new ∧ new.Sublist entries := by
  fun_induction distinctEntries s kept entries with
  | case1 kept =>
    obtain rfl := Except.ok.inj run
    exact ⟨distinct, [], (List.append_nil _).symm, .slnil⟩
  | case2 kept e rest trivial tail | case3 kept e rest _ atom negated literal repeated tail =>
    obtain ⟨nodup, new, same, among⟩ := tail run distinct
    exact ⟨nodup, new, same, among.cons e⟩
  | case4 => cases run
  | case5 kept e rest _ atom negated literal fresh consistent tail =>
    -- A kept formula with the same atom has the same sign or the other one.
    have unseen : atom ∉ atoms s kept.toList := by
      intro seen
      obtain ⟨k, member, same⟩ := List.mem_map.mp seen
      have inside : k ∈ kept := Array.mem_toList_iff.mp member
      by_cases sign : (s.literal k.formula).2 = negated
      · refine fresh (Array.any_eq_true'.mpr ⟨k, inside, ?_⟩)
        rw [beq_iff_eq]
        exact Prod.ext same sign
      · refine absurd (Array.find?_eq_none.mp consistent k inside) (not_not.mpr ?_)
        rw [beq_iff_eq]
        exact Prod.ext same (Bool.eq_not.mpr sign)
    have pushed : (atoms s (kept.push e).toList).Nodup := by
      rw [Array.toList_push, atoms, List.map_append, List.map_singleton, literal]
      exact List.concat_eq_append ▸ distinct.concat unseen
    obtain ⟨nodup, new, same, among⟩ := tail run pushed
    refine ⟨nodup, e :: new, ?_, among.cons_cons e⟩
    rw [same, Array.toList_push, List.append_assoc, List.singleton_append]

/-- If a goal that was not refuted is not refuted by dropping redundant formulas, the entries that
are left are among those of before and have different atoms. -/
theorem elimRedundancies_atoms (consistent : g.inconsistent = false) :
    g.elimRedundancies.Ensures s fun g' _ => g'.inconsistent = false →
      (atoms s g'.entries).Nodup ∧ g'.entries.Sublist g.entries := by
  unfold elimRedundancies
  rw [if_neg (Bool.not_eq_true _ ▸ consistent)]
  apply Terms.ensures_read_bind
  split
  · next kept run =>
    obtain ⟨nodup, new, same, among⟩ := distinctEntries_atoms run List.nodup_nil
    have same : kept.toList = new := same
    exact Terms.ensures_pure fun _ => ⟨nodup, same ▸ among⟩
  · next earlier later _ =>
    have refuted : (clash earlier later).Ensures s fun _ _ => True := trivial
    exact Terms.ensures_bind refuted fun _ _ _ _ => Terms.ensures_pure nofun

/-- Formulas with different atoms are different, and one of them is the negation of another only if
that is a negation itself. -/
theorem of_atoms_nodup (distinct : (atoms s g.entries).Nodup) :
    g.formulas.Nodup ∧
      ∀ f ∈ g.formulas, ∀ n ∈ g.formulas, s.Negates n f → s.IsNegation f := by
  have atoms_eq : atoms s g.entries = g.formulas.map fun f => (s.literal f).1 := by
    rw [atoms, formulas, List.map_map]
    rfl
  rw [atoms_eq] at distinct
  refine ⟨distinct.of_map _, fun f left n right negates => by_contra fun plain => ?_⟩
  have same : (s.literal f).1 = (s.literal n).1 := by
    rw [Store.literal_of_not_isNegation plain, Store.literal_of_not negates]
  obtain rfl : f = n := List.inj_on_of_nodup_map distinct left right same
  exact plain ⟨f, negates⟩

/-- A positive and a negative formula with one atom are a formula that is no negation and its
negation. -/
theorem negates_of_opposite {e d : TermId}
    (opposite : s.literal e = ((s.literal d).1, !(s.literal d).2)) :
    ¬s.IsNegation e ∧ s.Negates d e ∨ ¬s.IsNegation d ∧ s.Negates e d := by
  cases sign : (s.literal d).2 with
  | true =>
    have negative : s.literal d = ((s.literal d).1, true) := Prod.ext rfl sign
    obtain ⟨same, plain⟩ := Store.not_isNegation_of_literal (opposite.trans (by rw [sign]; rfl))
    exact .inl ⟨plain, same ▸ Store.negates_of_literal negative⟩
  | false =>
    obtain ⟨same, plain⟩ := Store.not_isNegation_of_literal (Prod.ext rfl sign)
    refine .inr ⟨plain, same ▸ Store.negates_of_literal (opposite.trans (by rw [sign]; rfl))⟩

/-- If what is left of a goal says what all say, and no formula is left beside its negation unless it
is a negation itself, then none of the goal was. -/
theorem not_negates_of_kept {g' : Goal} {f n : TermId}
    (kept_of : ∀ f ∈ g.formulas, f = Store.trueId ∨ ∃ k ∈ g'.formulas, s.literal k = s.literal f)
    (apart : ∀ f ∈ g'.formulas, ∀ n ∈ g'.formulas, s.Negates n f → s.IsNegation f)
    (left : f ∈ g.formulas) (right : n ∈ g.formulas) (notTrue : f ≠ Store.trueId)
    (plain : ¬s.IsNegation f) : ¬s.Negates n f := by
  intro negates
  have other : n ≠ Store.trueId := by
    rintro rfl
    rw [Store.Negates, Store.view, s.node_trueId.2] at negates
    cases negates
  obtain ⟨k, positive, same⟩ := (kept_of f left).resolve_left notTrue
  obtain ⟨l, negative, same'⟩ := (kept_of n right).resolve_left other
  rw [Store.literal_of_not_isNegation plain] at same
  rw [Store.literal_of_not negates] at same'
  obtain ⟨rfl, _⟩ := Store.not_isNegation_of_literal same
  exact plain (apart k positive l negative (Store.negates_of_literal same'))

/-- Dropping redundant formulas refutes a goal exactly when it was refuted, or has the negation of
a formula beside it that is neither `true` nor a negation itself. Otherwise some entries are left,
in order and with their justifications, which say what all say: without `true`, no formula twice,
and no formula with its negation, unless the formula is a negation itself. -/
theorem elimRedundancies_complete (g : Goal) (s : Store) :
    g.elimRedundancies.Ensures s fun g' after =>
      (g'.inconsistent = true ↔ g.inconsistent = true ∨ ∃ f ∈ g.formulas, ∃ n ∈ g.formulas,
        f ≠ Store.trueId ∧ ¬s.IsNegation f ∧ s.Negates n f) ∧
      (g'.inconsistent = false →
        Store.trueId ∉ g'.formulas ∧ g'.formulas.Nodup ∧
          (∀ f ∈ g'.formulas, ∀ n ∈ g'.formulas, after.Negates n f → after.IsNegation f) ∧
          g'.entries.Sublist g.entries ∧
          ∀ f ∈ g.formulas, f = Store.trueId ∨
            ∃ k ∈ g'.formulas, after.literal k = after.literal f) := by
  by_cases consistent : g.inconsistent = false
  swap
  · have refuted : g.inconsistent = true := by simpa using consistent
    unfold elimRedundancies
    rw [if_pos refuted]
    have whole : g.inconsistent = true ↔ g.inconsistent = true ∨ ∃ f ∈ g.formulas,
        ∃ n ∈ g.formulas, f ≠ Store.trueId ∧ ¬s.IsNegation f ∧ s.Negates n f :=
      iff_of_true refuted (.inl refuted)
    exact Terms.ensures_pure ⟨whole, fun open' => absurd open' consistent⟩
  refine (elimRedundancies_ensures.and (elimRedundancies_atoms consistent)).imp ?_
  rintro g' after - ⟨⟨refuted, _⟩ | ⟨_, outcome⟩, left⟩
  · rw [consistent] at refuted
    cases refuted
  rcases outcome with
    ⟨proof, earlier, later, ⟨first, notTrue⟩, ⟨second, notTrue'⟩, opposite, _, rfl⟩ |
    ⟨kept, old, said, rfl, rfl⟩
  · have first : earlier.formula ∈ g.formulas := List.mem_map_of_mem first
    have second : later.formula ∈ g.formulas := List.mem_map_of_mem second
    refine ⟨iff_of_true rfl (.inr ?_), nofun⟩
    rcases negates_of_opposite opposite with ⟨plain, negates⟩ | ⟨plain, negates⟩
    · exact ⟨_, first, _, second, notTrue, plain, negates⟩
    · exact ⟨_, second, _, first, notTrue', plain, negates⟩
  · obtain ⟨distinct, among⟩ := left consistent
    obtain ⟨nodup, apart⟩ := of_atoms_nodup distinct
    have kept_of : ∀ f ∈ g.formulas, f = Store.trueId ∨
        ∃ k ∈ ({ g with entries := kept } : Goal).formulas, after.literal k = after.literal f := by
      intro f member
      obtain ⟨e, inside, rfl⟩ := List.mem_map.mp member
      refine (said e inside).imp id fun ⟨k, there, same⟩ => ?_
      exact ⟨k.formula, List.mem_map_of_mem there, same⟩
    refine ⟨iff_of_false (by simp [consistent]) ?_, fun _ => ⟨?_, nodup, apart, among, kept_of⟩⟩
    · rintro (refuted | ⟨f, left, n, right, notTrue, plain, negates⟩)
      · rw [consistent] at refuted
        cases refuted
      · exact not_negates_of_kept kept_of apart left right notTrue plain negates
    · intro member
      obtain ⟨e, inside, same⟩ := List.mem_map.mp member
      exact (old e inside).2 same

end Goal
end Stratagem
