import Stratagem.Proofs.Rewriting.Rule
import Stratagem.Proofs.Term.Reading

/-!
# Formulas over numbers as truth values

The truth of well-sorted formulas over booleans, integers and reals under an assignment is a
reading of terms as truth values.
-/
namespace Stratagem

open Terms

variable {Γ : Signature} {I : Assignment} {s : Store} {t a b c : TermId} {p q r : Bool}

namespace Store.Formula

/-- A formula as one of the two truth values. -/
theorem exists_bit (sorted : s.WellSorted Γ t) (bool : s.sortOf t = .bool) (I : Assignment) :
    ∃ p : Bool, s.Formula Γ I t (p = true) := by
  classical
  refine ⟨decide (s.holds I t), (self sorted bool I).congr ?_⟩
  rw [decide_eq_true_iff]

/-- Well-sorted formulas as truth values. -/
theorem exists_bits {terms : List TermId} (sorted : ∀ a ∈ terms, s.WellSorted Γ a)
    (bool : ∀ a ∈ terms, s.sortOf a = .bool) (I : Assignment) :
    ∃ ps : List Bool, List.Forall₂ (fun t p => s.Formula Γ I t (p = true)) terms ps := by
  induction terms with
  | nil => exact ⟨[], .nil⟩
  | cons a rest tail =>
    obtain ⟨first, others⟩ := List.forall_mem_cons.mp sorted
    obtain ⟨firstBool, othersBool⟩ := List.forall_mem_cons.mp bool
    obtain ⟨p, here⟩ := exists_bit first firstBool I
    obtain ⟨ps, there⟩ := tail others othersBool
    exact ⟨p :: ps, .cons here there⟩

/-- The truth values of members, gathered by a junction. -/
theorem holds_members {terms : List TermId} {ps : List Bool}
    (known : List.Forall₂ (fun t p => s.Formula Γ I t (p = true)) terms ps) :
    ((∀ v ∈ terms.map (s.value I), v.holds) ↔ ps.all id = true) ∧
      ((∃ v ∈ terms.map (s.value I), v.holds) ↔ ps.any id = true) := by
  have values : terms.map (s.value I) = ps.map fun p => .truth (p = true) :=
    Denotes.map_value known
  rw [values]
  constructor
  · rw [List.forall_mem_map, List.all_eq_true]
    rfl
  · simp only [List.mem_map, exists_exists_and_eq_and, List.any_eq_true]
    rfl

end Store.Formula

/-- The truth value of a difference. -/
theorem Terms.mkXor_formula {p q : Prop} (left : s.Formula Γ I a p) (right : s.Formula Γ I b q) :
    (mkApp .xor [a, b]).Ensures s fun t after => after.Formula Γ I t ¬(p ↔ q) := by
  have fits : s.Fits Γ .bool .xor [a, b] := ⟨rfl, left.sort_eq, right.sort_eq⟩
  exact mkApp_denotes fits (by simp [left.sorted, right.sorted]) nofun
    (by simp [Op.denote, Op.interpret, left.value_eq, right.value_eq])

/-- The truth of formulas under an assignment agrees with the connectives. -/
def Assignment.reading (Γ : Signature) (I : Assignment) : Reading where
  Bit s t p := s.Formula Γ I t (p = true)
  mono known grown := known.mono grown
  unique left right := Bool.eq_iff_iff.mpr (left.unique right)
  ofBool := formula_ofBool
  of_bool known view := Bool.eq_iff_iff.mpr (known.of_bool view)
  not known := (mkNot_formula known).imp fun _ _ _ built => built.congr (by simp)
  of_not := by
    intro s t a p known view
    obtain ⟨q, inner, same⟩ := known.of_not view
    exact inner.congr (by rw [Bool.not_eq_true', ← Bool.not_eq_true, same, not_not])
  and known := (mkAnd_formula known).imp fun _ _ _ built => built.congr (by simp)
  or known := (mkOr_formula known).imp fun _ _ _ built => built.congr (by simp)
  of_and := by
    intro s t terms p known view
    obtain ⟨fits, sorted, value⟩ := known.of_view view
    obtain ⟨ps, bits⟩ := Store.Formula.exists_bits sorted fits.2.2 I
    have same : (p = true) = _ := Value.truth.inj value
    exact ⟨ps, bits, Bool.eq_iff_iff.mpr (same ▸ (Store.Formula.holds_members bits).1)⟩
  of_or := by
    intro s t terms p known view
    obtain ⟨fits, sorted, value⟩ := known.of_view view
    obtain ⟨ps, bits⟩ := Store.Formula.exists_bits sorted fits.2.2 I
    have same : (p = true) = _ := Value.truth.inj value
    exact ⟨ps, bits, Bool.eq_iff_iff.mpr (same ▸ (Store.Formula.holds_members bits).2)⟩
  xor left right := (mkXor_formula left right).imp fun _ _ _ built => built.congr (by simp)
  ite condition yes no := (mkIte_denotes condition yes no).imp fun _ _ _ built => by
    split_ifs at built ⊢ <;> exact built

end Stratagem
