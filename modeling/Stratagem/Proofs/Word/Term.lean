import Stratagem.Proofs.BitBlast.Meaning
import Stratagem.Proofs.Term.Logic
import Stratagem.Proofs.Term.Valuation

/-!
# Terms over bit-vectors whose literals are reduced

Widths are machine words, and a literal is stored reduced modulo two to its width, so that literals
with the same value are the same term. Well-sorted terms of which this holds throughout make a logic
(`BitAssignment.logic`), in which different literals have different values.
-/
namespace Stratagem

open Store (Extends)
open Terms

variable {s after : Store} {K : Constants} {I : BitAssignment} {t a b c : TermId}
  {sort : TermSort} {d e : Datum} {op : Op} {args : List TermId} {w : ℕ}

namespace Store

/-- The width of a term is a machine word, and a literal is reduced modulo two to its width. -/
structure Narrow (s : Store) (t : TermId) : Prop where
  /-- The width is a machine word. -/
  width : ∀ w, s.sortOf t = .bitVec w → w < 2 ^ 32
  /-- A literal is reduced. -/
  reduced : ∀ value w, s.op t = .bitVec value w → value < 2 ^ w

/-- A term stays narrow when the store grows. -/
theorem Narrow.mono (narrow : s.Narrow t) (grown : s.Extends after) (inside : t < s.size) :
    after.Narrow t := by
  constructor
  · rw [grown.sortOf_eq inside]
    exact narrow.width
  · rw [grown.op_eq inside]
    exact narrow.reduced

/-- A well-sorted term over booleans and bit-vectors, narrow throughout, has a sort and a value. -/
structure Carries (s : Store) (K : Constants) (I : BitAssignment) (t : TermId) (sort : TermSort)
    (d : Datum) : Prop extends s.Computes K I t sort d where
  /-- Everything in the term is narrow. -/
  narrow : s.Throughout s.Narrow t

namespace Carries

/-- A term carries its value when the store has grown. -/
theorem mono (known : s.Carries K I t sort d) (grown : s.Extends after) :
    after.Carries K I t sort d where
  toComputes := known.toComputes.mono grown
  narrow := known.narrow.mono grown known.sorted.inside fun _ inside narrow =>
    narrow.mono grown inside

/-- A term carries one value. -/
theorem unique (first : s.Carries K I t sort d) (second : s.Carries K I t sort e) : d = e :=
  first.datum_eq.symm.trans second.datum_eq

/-- A term that carries a value is in the store and narrow throughout. -/
theorem below (known : s.Carries K I t sort d) : t < s.size ∧ s.Throughout s.Narrow t :=
  ⟨known.sorted.inside, known.narrow⟩

/-- A width is a machine word. -/
theorem width (known : s.Carries K I t sort d) : ∀ w, sort = .bitVec w → w < 2 ^ 32 :=
  fun w same => known.narrow.here.width w (known.sort_eq.trans same)

/-- The value of a term is one of its sort. -/
theorem hasSort (known : s.Carries K I t sort d) : d.HasSort sort :=
  known.datum_eq ▸ known.sort_eq ▸ known.sorted.hasSort

/-- A term of a bit-vector sort carries a bit-vector. -/
theorem exists_word (known : s.Carries K I t (.bitVec w) d) : ∃ x : BitVec w, d = .word w x := by
  obtain ⟨x, value⟩ := known.sorted.datum_word (I := I) known.sort_eq
  exact ⟨x, known.datum_eq.symm.trans value⟩

/-- A term fits its arguments, which carry their values, and its value is that of its head. -/
theorem of_view (known : s.Carries K I t sort d) (view : s.view t = (op, args)) :
    s.BitFits K sort op args ∧ (∀ a ∈ args, s.Carries K I a (s.sortOf a) (s.datum I a)) ∧
      d = op.compute I sort (args.map (s.datum I)) := by
  obtain ⟨⟨sorted, rfl, rfl⟩, narrow⟩ := known
  obtain ⟨fits, arguments, value⟩ := sorted.of_view view
  refine ⟨fits, fun a member => ⟨⟨arguments a member, rfl, rfl⟩, ?_⟩, value I⟩
  exact narrow.of_mem_args ((Store.view_eq_iff.mp view).2 ▸ member)

end Carries

section Replacing

variable {args' : List TermId}

/-- An application fits arguments that are replaced by terms of the same sorts. -/
theorem BitFits.replace (fits : s.BitFits K sort op args)
    (same : List.Forall₂ (fun u a => s.sortOf u = s.sortOf a) args' args) :
    s.BitFits K sort op args' := by
  have sorts : ∀ u ∈ args', ∃ a ∈ args, s.sortOf u = s.sortOf a := fun u member =>
    exists_of_forall₂ same member
  revert fits
  match args, args', same with
  | [], [], .nil => exact id
  | [a], [u], .cons first .nil => cases op <;> simp [BitFits, first]
  | [a, b], [u, v], .cons first (.cons second .nil) =>
    cases op <;> simp only [BitFits, imp_self] <;> grind
  | [a, b, c], [u, v, w], .cons first (.cons second (.cons third .nil)) =>
    cases op <;> simp only [BitFits, imp_self] <;> grind
  | _ :: _ :: _ :: _ :: _, _ :: _ :: _ :: _ :: _, _ =>
    cases op <;> simp only [BitFits, imp_self] <;> grind

/-- Neither a literal nor a constant has arguments. -/
theorem BitFits.of_cons (fits : s.BitFits K sort op (a :: args)) :
    op.isValue = false ∧ ∀ name, op ≠ .var name := by
  cases op <;> first | exact fits.elim | exact ⟨rfl, fun _ => Op.noConfusion⟩

/-- The sort of an application is not given. -/
theorem BitFits.hasOwnSort_eq (fits : s.BitFits K sort op args) : op.hasOwnSort = false := by
  cases op <;> first | rfl | exact fits.elim

/-- The sort of an application that is no constant is computed from its arguments. -/
theorem BitFits.inferSort_eq (fits : s.BitFits K sort op args) (other : ∀ name, op ≠ .var name)
    (width : ∀ w, sort = .bitVec w → w < 2 ^ 32) : s.inferSort op args = sort := by
  have small {w : ℕ} (same : sort = .bitVec w) : TermSort.wordWidth w = w :=
    Nat.mod_eq_of_lt (width w same)
  revert fits
  unfold BitFits
  split <;> intro fits
  case h_2 name => exact absurd rfl (other name)
  case h_20 a b =>
    obtain ⟨w, v, rfl, first, second⟩ := fits
    simp [inferSort, bitWidth, first, second, TermSort.width?, small rfl]
  case h_21 =>
    obtain ⟨w, rfl, _⟩ := fits
    simp [inferSort, small rfl]
  case h_26 => exact fits.elim
  all_goals grind [inferSort, headSort]

end Replacing

end Store

namespace Terms

/-- A node over narrow arguments is narrow throughout if it is so itself. -/
theorem narrow_of_node (grown : s.Extends after)
    (found : t < after.size ∧ after.node t = ⟨op, args, sort⟩)
    (each : ∀ a ∈ args, a < s.size ∧ s.Throughout s.Narrow a)
    (width : ∀ w, sort = .bitVec w → w < 2 ^ 32)
    (reduced : ∀ value w, op = .bitVec value w → value < 2 ^ w) :
    after.Throughout after.Narrow t := by
  have head : after.op t = op := by rw [Store.op, found.2]
  have arguments : after.args t = args := by rw [Store.args, found.2]
  have same : after.sortOf t = sort := by rw [Store.sortOf, found.2]
  refine .intro ⟨by rwa [same], by rwa [head]⟩ ?_
  rw [arguments]
  intro a member
  obtain ⟨inside, narrow⟩ := each a member
  exact narrow.mono grown inside fun _ inside narrow => narrow.mono grown inside

/-- An application, not a literal, over narrow arguments is narrow throughout. -/
theorem mkApp_narrow (each : ∀ a ∈ args, a < s.size ∧ s.Throughout s.Narrow a)
    (width : ∀ w, s.inferSort op args = .bitVec w → w < 2 ^ 32) (compound : op.isValue = false) :
    (mkApp op args).Ensures s fun t after => after.Throughout after.Narrow t := by
  refine (mkApp_node fun a member => (each a member).1).imp fun t after grown found => ?_
  refine narrow_of_node grown found each width ?_
  rintro value w rfl
  cases compound

/-- An application, not a literal, carries the value of its head on the values of its arguments. -/
theorem mkApp_carries (fits : s.BitFits K sort op args)
    (each : ∀ a ∈ args, ∃ sort d, s.Carries K I a sort d) (same : s.inferSort op args = sort)
    (width : ∀ w, sort = .bitVec w → w < 2 ^ 32) (compound : op.isValue = false)
    (value : op.compute I sort (args.map (s.datum I)) = d) :
    (mkApp op args).Ensures s fun t after => after.Carries K I t sort d := by
  have sorted : ∀ a ∈ args, s.BitSorted K a := by
    intro a member
    obtain ⟨_, _, known⟩ := each a member
    exact known.sorted
  have narrow : ∀ a ∈ args, a < s.size ∧ s.Throughout s.Narrow a := by
    intro a member
    obtain ⟨_, _, known⟩ := each a member
    exact known.below
  exact ((mkApp_computes fits sorted same value).and
    (mkApp_narrow narrow (same ▸ width) compound)).imp fun _ _ _ built => ⟨built.1, built.2⟩

/-- The literal of a bit-vector carries it. -/
theorem carries_of_literal {x : BitVec w} (inside : t < s.size)
    (node : s.node t = ⟨.bitVec x.toNat w, [], .bitVec w⟩) (width : w < 2 ^ 32) :
    s.Carries K I t (.bitVec w) (.word w x) := by
  have fits : s.BitFits K (.bitVec w) (.bitVec x.toNat w) [] := rfl
  have computes := computes_of_node (I := I) (.refl s) ⟨inside, node⟩ fits nofun
  rw [Op.compute, BitVec.ofNat_toNat, BitVec.setWidth_eq] at computes
  refine ⟨computes, narrow_of_node (.refl s) ⟨inside, node⟩ nofun ?_ ?_⟩
  · rintro _ ⟨⟩
    exact width
  · rintro _ _ ⟨⟩
    exact x.isLt

/-- The truth values. -/
theorem carries_ofBool (s : Store) (p : Bool) : s.Carries K I (ofBool p) .bool (.truth p) := by
  refine ⟨computes_ofBool s p, ?_⟩
  have found : ofBool p < s.size ∧ s.node (ofBool p) = ⟨.bool p, [], .bool⟩ := by
    cases p with
    | true => exact s.node_trueId
    | false => exact s.node_falseId
  exact narrow_of_node (.refl s) found nofun nofun nofun

section Connectives

variable {p q r : Bool}

/-- Negation. -/
theorem mkNot_carries (known : s.Carries K I a .bool (.truth p)) :
    (mkNot a).Ensures s fun t after => after.Carries K I t .bool (.truth !p) :=
  ((mkNot_computes known.toComputes).and
    (mkApp_narrow (by simpa using known.below) nofun rfl)).imp fun _ _ _ built => ⟨built.1, built.2⟩

section Junctions

variable {ps : List Bool}
  (known : List.Forall₂ (fun t p => s.Carries K I t .bool (.truth p)) args ps)
include known

/-- Formulas that carry truth values are narrow throughout. -/
theorem narrow_of_carries : ∀ a ∈ args, a < s.size ∧ s.Throughout s.Narrow a := by
  intro a member
  obtain ⟨p, _, carries⟩ := exists_of_forall₂ known member
  exact carries.below

/-- Conjunction. -/
theorem mkAnd_carries :
    (mkAnd args).Ensures s fun t after => after.Carries K I t .bool (.truth (ps.all id)) := by
  have narrow : (mkAnd args).Ensures s fun t after => after.Throughout after.Narrow t := by
    have each := narrow_of_carries known
    match args with
    | [] => exact (carries_ofBool (K := K) (I := I) s true).narrow
    | [a] => exact (each a (by simp)).2
    | a :: b :: rest =>
      change (mkApp .and (a :: b :: rest)).Ensures _ _
      exact mkApp_narrow each nofun rfl
  exact ((mkAnd_computes (known.imp fun _ _ each => each.toComputes)).and narrow).imp
    fun _ _ _ built => ⟨built.1, built.2⟩

/-- Disjunction. -/
theorem mkOr_carries :
    (mkOr args).Ensures s fun t after => after.Carries K I t .bool (.truth (ps.any id)) := by
  have narrow : (mkOr args).Ensures s fun t after => after.Throughout after.Narrow t := by
    have each := narrow_of_carries known
    match args with
    | [] => exact (carries_ofBool (K := K) (I := I) s false).narrow
    | [a] => exact (each a (by simp)).2
    | a :: b :: rest =>
      change (mkApp .or (a :: b :: rest)).Ensures _ _
      exact mkApp_narrow each nofun rfl
  exact ((mkOr_computes (known.imp fun _ _ each => each.toComputes)).and narrow).imp
    fun _ _ _ built => ⟨built.1, built.2⟩

end Junctions

/-- Equation of terms of one sort. -/
theorem mkEq_carries (left : s.Carries K I a sort d) (right : s.Carries K I b sort e) :
    (mkEq a b).Ensures s fun t after => after.Carries K I t .bool (.truth (decide (d = e))) := by
  have fits : s.BitFits K .bool .eq [a, b] := ⟨rfl, right.sort_eq.trans left.sort_eq.symm⟩
  refine mkApp_carries fits ?_ rfl nofun rfl ?_
  · simpa using ⟨⟨_, _, left⟩, _, _, right⟩
  · simp [Op.compute, left.datum_eq, right.datum_eq]

/-- Case distinction between terms of one sort. -/
theorem mkIte_carries (condition : s.Carries K I c .bool (.truth r))
    (yes : s.Carries K I a sort d) (no : s.Carries K I b sort e) :
    (mkIte c a b).Ensures s fun t after => after.Carries K I t sort (if r then d else e) := by
  have narrow : (mkIte c a b).Ensures s fun t after => after.Throughout after.Narrow t := by
    refine mkApp_narrow (by simpa using ⟨condition.below, yes.below, no.below⟩) (fun w same => ?_) rfl
    exact yes.narrow.here.width w same
  exact ((mkIte_computes condition.toComputes yes.toComputes no.toComputes).and narrow).imp
    fun _ _ _ built => ⟨built.1, built.2⟩

end Connectives

end Terms

open Classical in
/-- The truth value of a proposition. -/
noncomputable def Datum.ofProp (p : Prop) : Datum := .truth (decide p)

namespace Datum

variable {p q : Prop} {r : Bool}

open Classical in
/-- A truth value is that of the propositions that are equivalent to it. -/
theorem truth_eq (same : r = true ↔ p) : truth r = ofProp p :=
  congrArg truth (Bool.eq_iff_iff.mpr (same.trans (decide_eq_true_iff).symm))

open Classical in
/-- Whether the truth value of a proposition is true. -/
@[simp] theorem holds_ofProp (p : Prop) : (ofProp p).holds = true ↔ p := decide_eq_true_iff

/-- Propositions with one truth value are equivalent. -/
theorem iff_of_ofProp (same : ofProp p = ofProp q) : p ↔ q := by
  rw [← holds_ofProp p, same, holds_ofProp]

end Datum

namespace Store.Carries

variable {p : Prop}

/-- A term that carries a truth value carries that of any equivalent proposition. -/
theorem congr {q : Bool} (known : s.Carries K I t .bool (.truth q)) (same : q = true ↔ p) :
    s.Carries K I t .bool (.ofProp p) := Datum.truth_eq same ▸ known

/-- A term of the boolean sort carries a truth value. -/
theorem eq_truth (known : s.Carries K I t .bool d) : d = .truth d.holds :=
  Datum.eq_truth known.hasSort

/-- An argument of the boolean sort is a formula. -/
theorem formula (known : s.Carries K I t sort d) (bool : sort = .bool) :
    s.Carries K I t .bool (.ofProp (d.holds = true)) := by
  subst bool
  exact (known.eq_truth ▸ known).congr (by simp)

/-- A formula is true if it carries the value of a true one. -/
theorem iff_true (known : s.Carries K I t .bool (.ofProp p)) :
    p ↔ s.Carries K I t .bool (.ofProp True) := by
  constructor
  · exact fun holds => eq_true holds ▸ known
  · exact fun holds => (Datum.iff_of_ofProp (known.unique holds)).mpr trivial

end Store.Carries

open Classical in
/-- Well-sorted terms over booleans and bit-vectors, narrow throughout, make a logic. -/
noncomputable def BitAssignment.logic (K : Constants) (I : BitAssignment) : Logic where
  Value := Datum
  truth := .ofProp
  equations := True
  Denotes s := s.Carries K I
  truth_iff := Datum.iff_of_ofProp
  inside known := known.sorted.inside
  sort_eq known := known.sort_eq
  unique := Store.Carries.unique
  mono := Store.Carries.mono
  exists_truth known := ⟨_, known.eq_truth.trans (Datum.truth_eq Iff.rfl)⟩
  literal s b := (carries_ofBool s b).congr Iff.rfl
  not known := (mkNot_carries known).imp fun _ _ _ built => built.congr (by simp)
  and known := (mkAnd_carries (List.forall₂_map_right_iff.mpr known)).imp
    fun _ _ _ built => built.congr (by simp)
  or known := (mkOr_carries (List.forall₂_map_right_iff.mpr known)).imp
    fun _ _ _ built => built.congr (by simp)
  eq _ left right := (mkEq_carries left right).imp fun _ _ _ built => built.congr (by simp)
  ite condition yes no := (mkIte_carries condition yes no).imp fun _ _ _ built => by
    rwa [if_congr decide_eq_true_iff rfl rfl] at built
  of_bool known view := (known.of_view view).2.2.trans (Datum.truth_eq Iff.rfl)
  of_not known view := by
    obtain ⟨⟨rfl, bool⟩, each, rfl⟩ := known.of_view view
    exact ⟨rfl, _, (each _ (by simp)).formula bool, Datum.truth_eq (by simp)⟩
  of_and known view := by
    obtain ⟨⟨rfl, bool⟩, each, rfl⟩ := known.of_view view
    have formula := fun a member => (each a member).formula (bool a member)
    refine ⟨rfl, fun a member => ⟨_, formula a member⟩, Datum.truth_eq ?_⟩
    simp only [List.all_map, List.all_eq_true, Function.comp_apply]
    exact forall₂_congr fun a member => (formula a member).iff_true
  of_or known view := by
    obtain ⟨⟨rfl, bool⟩, each, rfl⟩ := known.of_view view
    have formula := fun a member => (each a member).formula (bool a member)
    refine ⟨rfl, fun a member => ⟨_, formula a member⟩, Datum.truth_eq ?_⟩
    simp only [List.any_map, List.any_eq_true, Function.comp_apply]
    exact exists_congr fun a => and_congr_right fun member => (formula a member).iff_true
  of_implies known view := by
    obtain ⟨⟨rfl, left, right⟩, each, rfl⟩ := known.of_view view
    refine ⟨rfl, _, _, (each _ (by simp)).formula left, (each _ (by simp)).formula right, ?_⟩
    exact Datum.truth_eq (by simp [imp_iff_not_or])
  of_xor known view := by
    obtain ⟨⟨rfl, left, right⟩, each, rfl⟩ := known.of_view view
    refine ⟨trivial, rfl, _, _, (each _ (by simp)).formula left,
      (each _ (by simp)).formula right, ?_⟩
    exact Datum.truth_eq (by simp)
  of_ite known view := by
    obtain ⟨⟨bool, left, right⟩, each, rfl⟩ := known.of_view view
    exact ⟨_, _, _, (each _ (by simp)).formula bool, left ▸ each _ (by simp),
      right ▸ each _ (by simp), by simp [Op.compute]⟩
  of_eq known view := by
    obtain ⟨⟨rfl, same⟩, each, rfl⟩ := known.of_view view
    exact ⟨trivial, rfl, _, _, _, each _ (by simp), same ▸ each _ (by simp),
      Datum.truth_eq (by simp)⟩
  of_distinct {s t args sort v} known view := by
    obtain ⟨⟨rfl, same⟩, each, rfl⟩ := known.of_view view
    have head := Store.sortOf_eq_headSort same
    exact ⟨trivial, rfl, s.headSort args, s.datum I, fun a member => head a member ▸ each a member,
      Datum.truth_eq (by simp)⟩

end Stratagem
