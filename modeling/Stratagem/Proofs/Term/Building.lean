import Mathlib.Algebra.BigOperators.Group.List.Basic
import Stratagem.Proofs.Reasoning
import Stratagem.Proofs.Term.Meaning

/-!
# The meaning of built terms

What the constructors of terms ensure: the term they build is well-sorted if its arguments are,
and it has the value of its head on the values of its arguments. A term with its sort and its
value is one judgement, `Store.Denotes`, which lasts while the store grows.
-/
namespace Stratagem

open Store (Extends)

/-- The sort of integers or of reals. -/
def TermSort.number (isInt : Bool) : TermSort := if isInt then .int else .real

namespace TermSort

/-- A sort of numbers is that of integers or that of reals. -/
theorem exists_eq_number {sort : TermSort} (arith : sort.isArith) :
    ∃ isInt, sort = .number isInt := by
  cases sort with
  | int => exact ⟨true, rfl⟩
  | real => exact ⟨false, rfl⟩
  | _ => cases arith

/-- Both sorts of numbers are sorts of numbers. -/
@[simp] theorem isArith_number (isInt : Bool) : (number isInt).isArith = true := by
  cases isInt <;> rfl

end TermSort

/-- A term is well-sorted over a signature and has a sort and a value. -/
structure Store.Denotes (s : Store) (Γ : Signature) (I : Assignment) (t : TermId)
    (sort : TermSort) (v : Value) : Prop where
  /-- The term is well-sorted. -/
  sorted : s.WellSorted Γ t
  /-- The sort of the term. -/
  sort_eq : s.sortOf t = sort
  /-- The value of the term. -/
  value_eq : s.value I t = v

/-- A formula with its truth value. -/
abbrev Store.Formula (s : Store) (Γ : Signature) (I : Assignment) (t : TermId) (p : Prop) : Prop :=
  s.Denotes Γ I t .bool (.truth p)

/-- A term of integers or of reals with its value. -/
abbrev Store.Number (s : Store) (Γ : Signature) (I : Assignment) (isInt : Bool) (t : TermId)
    (x : ℝ) : Prop :=
  s.Denotes Γ I t (.number isInt) (.number x)

namespace Store

variable {s after : Store} {Γ : Signature} {I : Assignment} {t : TermId} {sort : TermSort}
  {v : Value} {p q : Prop} {x y : ℝ} {isInt : Bool}

namespace Denotes

/-- What a term denotes does not change when the store grows. -/
theorem mono (known : s.Denotes Γ I t sort v) (grown : s.Extends after) :
    after.Denotes Γ I t sort v where
  sorted := known.sorted.mono grown
  sort_eq := by rw [grown.sortOf_eq known.sorted.inside, known.sort_eq]
  value_eq := by rw [grown.value_eq I known.sorted.inside, known.value_eq]

/-- The position of a term that denotes something is inside. -/
theorem inside (known : s.Denotes Γ I t sort v) : t < s.size := known.sorted.inside

/-- The value is one of the sort. -/
theorem hasSort (known : s.Denotes Γ I t sort v) : v.HasSort sort := by
  rw [← known.value_eq, ← known.sort_eq]
  exact known.sorted.hasSort

/-- A well-sorted term denotes its value. -/
theorem self (sorted : s.WellSorted Γ t) (I : Assignment) :
    s.Denotes Γ I t (s.sortOf t) (s.value I t) :=
  ⟨sorted, rfl, rfl⟩

/-- The values of terms that denote values. -/
theorem map_value {α : Type} {terms : List TermId} {as : List α} {value : α → Value}
    (known : List.Forall₂ (fun t a => s.Denotes Γ I t sort (value a)) terms as) :
    terms.map (s.value I) = as.map value := by
  induction known with
  | nil => rfl
  | cons first _ rest => rw [List.map_cons, List.map_cons, first.value_eq, rest]

/-- Terms that denote values of a sort are well-sorted and of that sort. -/
theorem of_mem {α : Type} {terms : List TermId} {as : List α} {value : α → Value}
    (known : List.Forall₂ (fun t a => s.Denotes Γ I t sort (value a)) terms as) {t : TermId}
    (member : t ∈ terms) : s.WellSorted Γ t ∧ s.sortOf t = sort := by
  induction known with
  | nil => cases member
  | cons first _ rest =>
    obtain rfl | later := List.mem_cons.mp member
    · exact ⟨first.sorted, first.sort_eq⟩
    · exact rest later

end Denotes

namespace Formula

/-- A formula keeps its truth value when the store grows. -/
theorem mono (known : s.Formula Γ I t p) (grown : s.Extends after) : after.Formula Γ I t p :=
  Denotes.mono known grown

/-- A formula may be read as any equivalent proposition. -/
theorem congr (known : s.Formula Γ I t p) (same : p ↔ q) : s.Formula Γ I t q :=
  propext same ▸ known

/-- A well-sorted term of the boolean sort is a formula. -/
theorem self (sorted : s.WellSorted Γ t) (bool : s.sortOf t = .bool) (I : Assignment) :
    s.Formula Γ I t (s.holds I t) where
  sorted := sorted
  sort_eq := bool
  value_eq := Value.eq_truth (bool ▸ sorted.hasSort)

/-- A formula has one truth value. -/
theorem unique (known : s.Formula Γ I t p) (other : s.Formula Γ I t q) : p ↔ q :=
  iff_of_eq (Value.truth.inj (known.value_eq.symm.trans other.value_eq))

/-- A formula holds if its truth value does. -/
theorem holds_iff (known : s.Formula Γ I t p) : s.holds I t ↔ p := by
  rw [holds, known.value_eq, Value.holds_truth]

end Formula

namespace Number

/-- A number keeps its value when the store grows. -/
theorem mono (known : s.Number Γ I isInt t x) (grown : s.Extends after) :
    after.Number Γ I isInt t x :=
  Denotes.mono known grown

/-- A term may be read as any equal number. -/
theorem congr (known : s.Number Γ I isInt t x) (same : x = y) : s.Number Γ I isInt t y :=
  same ▸ known

/-- A well-sorted term of a sort of numbers is a number. -/
theorem self (sorted : s.WellSorted Γ t) (same : s.sortOf t = .number isInt) (I : Assignment) :
    s.Number Γ I isInt t (s.num I t) where
  sorted := sorted
  sort_eq := same
  value_eq := Value.eq_number (same ▸ TermSort.isArith_number isInt) sorted.hasSort

/-- The number that a term denotes. -/
theorem num_eq (known : s.Number Γ I isInt t x) : s.num I t = x := by
  rw [num, known.value_eq, Value.num_number]

/-- Whether a number has the integer sort. -/
theorem isInt_eq (known : s.Number Γ I isInt t x) : s.isInt t = isInt := by
  rw [Store.isInt, known.sort_eq]
  cases isInt <;> rfl

end Number

/-- The join of the sorts of numbers is that of the integers just when all of them are. -/
theorem arithJoin_eq_int_iff {args : List TermId} :
    s.arithJoin args = .int ↔ ∀ a ∈ args, s.sortOf a = .int := by
  unfold arithJoin isInt
  by_cases all : args.all fun a => s.sortOf a == .int
  · rw [if_pos all]
    simpa using all
  · rw [if_neg all]
    simpa using all

/-- The join of sorts is a sort of numbers. -/
theorem isArith_arithJoin (s : Store) (args : List TermId) : (s.arithJoin args).isArith := by
  unfold arithJoin
  split <;> rfl

end Store
namespace Terms

variable {s : Store} {Γ : Signature} {I : Assignment} {sort : TermSort} {op : Op}
  {args : List TermId}

/-- The node is at the position that interning answers with. -/
theorem intern_node {node : Node} (inside : ∀ a ∈ node.args, a < s.size) :
    (intern node).Ensures s fun t after => t < after.size ∧ after.node t = node := by
  unfold Ensures intern
  dsimp only
  split
  · next t found => exact Store.node_of_getElem? ((s.exact node t).mp found)
  · next new =>
    have fits : ∀ a ∈ node.args, a < s.nodes.size := inside
    rw [dif_pos fits]
    exact Store.node_of_getElem? (Array.getElem?_push_size ..)

/-- The node of a term that is interned, as an entry of the store. -/
theorem intern_getElem? {node : Node} (inside : ∀ a ∈ node.args, a < s.size) :
    (intern node).Ensures s fun t after => after.nodes[t]? = some node :=
  (intern_node inside).imp fun t after _ found => by
    rw [← found.2]
    exact Store.getElem?_eq_node found.1

/-- The node of an application whose arguments are there. -/
theorem mkApp_node (inside : ∀ a ∈ args, a < s.size) :
    (mkApp op args).Ensures s fun t after =>
      t < after.size ∧ after.node t = ⟨op, args, s.inferSort op args⟩ := by
  unfold mkApp
  refine ensures_read_bind ?_
  dsimp only
  split
  case h_4 => exact intern_node inside
  all_goals
    refine ensures_bind_of_all fun _ after grown => ?_
    exact intern_node fun a member => grown.lt_size (inside a member)

/-- The node of a constant. -/
theorem mkVar_node (name : String) (sort : TermSort) :
    (mkVar name sort).Ensures s fun t after => t < after.size ∧ after.node t = ⟨.var name, [], sort⟩ :=
  ensures_bind_of_all fun _ _ _ => intern_node (by simp)

/-- A node adds at most one term to the store. -/
theorem intern_size (node : Node) :
    (intern node).Ensures s fun _ after => after.size ≤ s.size + 1 := by
  unfold Ensures intern
  dsimp only
  split
  · exact Nat.le_succ _
  · split
    · exact (Array.size_push _).le
    · exact Nat.le_succ _

/-- A constant adds at most one term. -/
theorem mkVar_size (name : String) (sort : TermSort) :
    (mkVar name sort).Ensures s fun _ after => after.size ≤ s.size + 1 := by
  have recorded : (recordNames [name]).Ensures s fun _ after => after.size = s.size := rfl
  refine ensures_bind recorded fun _ after _ same => ?_
  exact same ▸ intern_size _

/-- An application adds at most one term. -/
theorem mkApp_size (op : Op) (args : List TermId) :
    (mkApp op args).Ensures s fun _ after => after.size ≤ s.size + 1 := by
  have recorded (sort : TermSort) :
      (recordSort sort).Ensures s fun _ after => after.size = s.size := by
    show (s.withSort sort).size = s.size
    unfold Store.withSort
    split <;> rfl
  unfold mkApp
  refine ensures_read_bind ?_
  dsimp only
  split
  case h_4 => exact intern_size _
  all_goals
    refine ensures_bind (recorded _) fun _ after _ same => ?_
    exact same ▸ intern_size _

/-- Other arguments for a term add at most one term. -/
theorem rebuild_size (t : TermId) (args : List TermId) :
    (rebuild t args).Ensures s fun _ after => after.size ≤ s.size + 1 := by
  unfold rebuild
  refine ensures_read_bind ?_
  dsimp only
  split
  · exact ensures_pure (Nat.le_succ _)
  · split
    · exact intern_size _
    · exact mkApp_size _ _

/-- A node that fits well-sorted arguments is a well-sorted term with the value of its head. -/
theorem denotes_of_node {after : Store} {t : TermId} (grown : s.Extends after)
    (found : t < after.size ∧ after.node t = ⟨op, args, sort⟩) (fits : s.Fits Γ sort op args)
    (sorted : ∀ a ∈ args, s.WellSorted Γ a) :
    after.Denotes Γ I t sort (op.denote I sort (args.map (s.value I))) := by
  obtain ⟨inside, node⟩ := found
  have head : after.op t = op := by rw [Store.op, node]
  have arguments : after.args t = args := by rw [Store.args, node]
  have same : after.sortOf t = sort := by rw [Store.sortOf, node]
  refine ⟨.intro inside ?_ ?_, same, ?_⟩
  · rw [head, arguments, same]
    exact Store.WellSorted.fits_mono grown ⟨fun _ _ known => known, id⟩
      (fun a member => (sorted a member).inside) fits
  · rw [arguments]
    exact fun a member => (sorted a member).mono grown
  · rw [Store.value_eq, head, arguments, same]
    congr 1
    exact List.map_congr_left fun a member => grown.value_eq I (sorted a member).inside

/-- The sort of a well-sorted sum or product is computed from its arguments. -/
theorem arithJoin_eq (arith : sort.isArith) (some : args ≠ [])
    (same : ∀ a ∈ args, s.sortOf a = sort) :
    s.arithJoin args = sort := by
  unfold Store.arithJoin Store.isInt
  obtain ⟨first, member⟩ := List.exists_mem_of_ne_nil args some
  cases sort with
  | int =>
    rw [if_pos]
    simpa using same
  | real =>
    rw [if_neg]
    intro all
    have int := List.all_eq_true.mp all first member
    rw [same first member] at int
    cases int
  | _ => cases arith

/-- The sort of a well-sorted application is computed from its arguments. -/
theorem inferSort_eq (fits : s.Fits Γ sort op args) (sorted : ∀ a ∈ args, s.WellSorted Γ a)
    (interpreted : ∀ name, op ≠ .var name) : s.inferSort op args = sort := by
  revert fits
  unfold Store.Fits
  split <;> intro fits
  case h_2 name => exact absurd rfl (interpreted name)
  case h_10 => exact fits.2.1
  case h_17 a => exact arithJoin_eq fits.1 (by simp) (by simpa using fits.2)
  case h_18 a b => exact arithJoin_eq fits.1 (by simp) (by simpa using fits.2)
  case h_19 => exact arithJoin_eq fits.1 (by rintro rfl; simp at fits) fits.2.2
  case h_20 => exact arithJoin_eq fits.1 (by rintro rfl; simp at fits) fits.2.2
  case h_21 a e =>
    -- The exponent is an integer whatever the base is.
    obtain ⟨arith, base, k, _, literal⟩ := fits
    have exponent := (sorted e (by simp)).fits
    rw [literal] at exponent
    have int : s.sortOf e = .int := by
      revert exponent
      cases s.args e with
      | nil => exact id
      | cons => exact False.elim
    cases sort with
    | int => exact arithJoin_eq arith (by simp) (by simp [base, int])
    | real => simp [Store.inferSort, Store.arithJoin, Store.isInt, base]
    | _ => cases arith
  all_goals first | exact fits.elim | exact fits.symm | exact fits.1.symm

/-- An application that fits well-sorted arguments denotes the value of its head. -/
theorem mkApp_denotes {v : Value} (fits : s.Fits Γ sort op args)
    (sorted : ∀ a ∈ args, s.WellSorted Γ a) (interpreted : ∀ name, op ≠ .var name)
    (value : op.denote I sort (args.map (s.value I)) = v) :
    (mkApp op args).Ensures s fun t after => after.Denotes Γ I t sort v := by
  have inside : ∀ a ∈ args, a < s.size := fun a member => (sorted a member).inside
  refine (mkApp_node inside).imp fun t after grown found => ?_
  rw [inferSort_eq fits sorted interpreted] at found
  exact value ▸ denotes_of_node grown found fits sorted

section Formulas

variable {a b c : TermId} {p q r : Prop} {v w : Value}

/-- The literal `true`. -/
theorem formula_trueId (s : Store) : s.Formula Γ I Store.trueId True := by
  have fits : s.Fits Γ .bool (.bool true) [] := rfl
  have known := denotes_of_node (I := I) (.refl s) s.node_trueId fits nofun
  exact Store.Formula.congr known (by simp)

/-- The literal `false`. -/
theorem formula_falseId (s : Store) : s.Formula Γ I Store.falseId False := by
  have fits : s.Fits Γ .bool (.bool false) [] := rfl
  have known := denotes_of_node (I := I) (.refl s) s.node_falseId fits nofun
  exact Store.Formula.congr known (by simp)

/-- A truth value. -/
theorem formula_ofBool (s : Store) (b : Bool) : s.Formula Γ I (ofBool b) (b = true) := by
  cases b with
  | true => exact (formula_trueId s).congr (by simp)
  | false => exact (formula_falseId s).congr (by simp)

/-- Negation of a formula. -/
theorem mkNot_formula (known : s.Formula Γ I a p) :
    (mkNot a).Ensures s fun t after => after.Formula Γ I t (¬p) := by
  have fits : s.Fits Γ .bool .not [a] := ⟨rfl, known.sort_eq⟩
  exact mkApp_denotes fits (by simpa using known.sorted) nofun
    (by simp [Op.denote, Op.interpret, known.value_eq])

/-- Conjunction of formulas. -/
theorem mkAnd_formula {α : Type} {as : List α} {p : α → Prop}
    (known : List.Forall₂ (fun t a => s.Formula Γ I t (p a)) args as) :
    (mkAnd args).Ensures s fun t after => after.Formula Γ I t (∀ a ∈ as, p a) := by
  match args, known with
  | [], .nil => exact (formula_trueId s).congr (by simp)
  | [a], .cons only .nil => exact only.congr List.forall_mem_singleton.symm
  | a :: b :: rest, known =>
    have each := fun t => Store.Denotes.of_mem known (t := t)
    have fits : s.Fits Γ .bool .and (a :: b :: rest) :=
      ⟨rfl, by simp, fun t member => (each t member).2⟩
    refine mkApp_denotes fits (fun t member => (each t member).1) nofun ?_
    rw [Store.Denotes.map_value known]
    simp [Op.denote, Op.interpret]

/-- Disjunction of formulas. -/
theorem mkOr_formula {α : Type} {as : List α} {p : α → Prop}
    (known : List.Forall₂ (fun t a => s.Formula Γ I t (p a)) args as) :
    (mkOr args).Ensures s fun t after => after.Formula Γ I t (∃ a ∈ as, p a) := by
  match args, known with
  | [], .nil => exact (formula_falseId s).congr (by simp)
  | [a], .cons only .nil => exact only.congr (by simp)
  | a :: b :: rest, known =>
    have each := fun t => Store.Denotes.of_mem known (t := t)
    have fits : s.Fits Γ .bool .or (a :: b :: rest) :=
      ⟨rfl, by simp, fun t member => (each t member).2⟩
    refine mkApp_denotes fits (fun t member => (each t member).1) nofun ?_
    rw [Store.Denotes.map_value known]
    simp [Op.denote, Op.interpret]

open Classical in
/-- Case distinction between terms of one sort. -/
theorem mkIte_denotes (condition : s.Formula Γ I c p) (yes : s.Denotes Γ I a sort v)
    (no : s.Denotes Γ I b sort w) :
    (mkIte c a b).Ensures s fun t after => after.Denotes Γ I t sort (if p then v else w) := by
  have fits : s.Fits Γ sort .ite [c, a, b] := ⟨condition.sort_eq, yes.sort_eq, no.sort_eq⟩
  refine mkApp_denotes fits (by simp [condition.sorted, yes.sorted, no.sorted]) nofun ?_
  simp only [List.map_cons, List.map_nil, condition.value_eq, yes.value_eq, no.value_eq]
  rfl

end Formulas

section Numbers

variable {a b : TermId} {x y : ℝ} {isInt : Bool}

/-- An integer literal. -/
theorem mkInt_number (n : ℤ) :
    (mkInt n).Ensures s fun t after => after.Number Γ I true t n := by
  have fits : s.Fits Γ .int (.int n) [] := rfl
  exact (intern_node (by simp)).imp fun t after grown found =>
    denotes_of_node grown found fits nofun

/-- An integer literal as such. -/
theorem mkInt_literal (n : ℤ) :
    (mkInt n).Ensures s fun t after => after.op t = .int n ∧ after.WellSorted Γ t := by
  have fits : s.Fits Γ .int (.int n) [] := rfl
  refine (intern_node (by simp)).imp fun t after grown found => ⟨by rw [Store.op, found.2], ?_⟩
  exact (denotes_of_node (I := ⟨fun _ => True, fun _ => 0, fun _ => 0⟩) grown found fits
    (by simp)).sorted

/-- A rational literal of the real sort. -/
theorem mkReal_number (r : ℚ) :
    (mkReal r).Ensures s fun t after => after.Number Γ I false t r := by
  have fits : s.Fits Γ .real (.real r) [] := rfl
  exact (intern_node (by simp)).imp fun t after grown found =>
    denotes_of_node grown found fits nofun

/-- An integral rational is its numerator. -/
theorem num_of_isIntegral {r : ℚ} (integral : Rational.isIntegral r) : (r.num : ℚ) = r :=
  Rat.coe_int_num_of_den_eq_one (by simpa [Rational.isIntegral] using integral)

/-- A rational literal, which is integral if it is of the integer sort. -/
theorem mkNumeral_number {r : ℚ} (integral : isInt → Rational.isIntegral r) :
    (mkNumeral r isInt).Ensures s fun t after => after.Number Γ I isInt t r := by
  unfold mkNumeral
  cases isInt with
  | true =>
    rw [if_pos (by simpa using integral rfl)]
    refine (mkInt_number r.num).imp fun t after _ built => built.congr ?_
    exact_mod_cast num_of_isIntegral (integral rfl)
  | false => exact mkReal_number r

/-- Sum of numbers of one sort. -/
theorem mkAdd_number {xs : List ℝ} (some : args ≠ [])
    (known : List.Forall₂ (s.Number Γ I isInt) args xs) :
    (mkAdd args).Ensures s fun t after => after.Number Γ I isInt t xs.sum := by
  match args, known with
  | [a], .cons only .nil => exact only.congr List.sum_singleton.symm
  | a :: b :: rest, known =>
    have each := fun t => Store.Denotes.of_mem known (t := t)
    have fits : s.Fits Γ (.number isInt) .add (a :: b :: rest) :=
      ⟨TermSort.isArith_number isInt, by simp, fun t member => (each t member).2⟩
    refine mkApp_denotes fits (fun t member => (each t member).1) nofun ?_
    rw [Store.Denotes.map_value known]
    simp [Op.denote, Op.interpret, Function.comp_def]

/-- Product of numbers of one sort. -/
theorem mkMul_number {xs : List ℝ} (some : args ≠ [])
    (known : List.Forall₂ (s.Number Γ I isInt) args xs) :
    (mkMul args).Ensures s fun t after => after.Number Γ I isInt t xs.prod := by
  match args, known with
  | [a], .cons only .nil => exact only.congr List.prod_singleton.symm
  | a :: b :: rest, known =>
    have each := fun t => Store.Denotes.of_mem known (t := t)
    have fits : s.Fits Γ (.number isInt) .mul (a :: b :: rest) :=
      ⟨TermSort.isArith_number isInt, by simp, fun t member => (each t member).2⟩
    refine mkApp_denotes fits (fun t member => (each t member).1) nofun ?_
    rw [Store.Denotes.map_value known]
    simp [Op.denote, Op.interpret, Function.comp_def]

/-- Power with a positive integer literal as exponent. -/
theorem mkPower_number {e : TermId} {k : ℕ} (base : s.Number Γ I isInt a x) (positive : 0 < k)
    (literal : s.op e = .int k) (sorted : s.WellSorted Γ e) :
    (mkApp .power [a, e]).Ensures s fun t after => after.Number Γ I isInt t (x ^ k) := by
  have fits : s.Fits Γ (.number isInt) .power [a, e] :=
    ⟨TermSort.isArith_number isInt, base.sort_eq, k, positive, literal⟩
  refine mkApp_denotes fits (by simp [base.sorted, sorted]) nofun ?_
  have exponent : s.value I e = .number k := by
    rw [Store.value_eq, literal]
    simp [Op.denote, Op.interpret]
  simp [Op.denote, Op.interpret, base.value_eq, exponent]

/-- Order of two numbers of one sort. -/
theorem mkLe_formula (left : s.Number Γ I isInt a x) (right : s.Number Γ I isInt b y) :
    (mkApp .le [a, b]).Ensures s fun t after => after.Formula Γ I t (x ≤ y) := by
  have fits : s.Fits Γ .bool .le [a, b] :=
    ⟨rfl, by rw [left.sort_eq]; exact TermSort.isArith_number isInt,
      by rw [left.sort_eq, right.sort_eq]⟩
  exact mkApp_denotes fits (by simp [left.sorted, right.sorted]) nofun
    (by simp [Op.denote, Op.interpret, left.value_eq, right.value_eq])

/-- Cast of an integer. -/
theorem mkToReal_number (known : s.Number Γ I true a x) :
    (mkApp .toReal [a]).Ensures s fun t after => after.Number Γ I false t x := by
  have fits : s.Fits Γ .real .toReal [a] := ⟨rfl, .inl known.sort_eq⟩
  exact mkApp_denotes fits (by simpa using known.sorted) nofun
    (by simp [Op.denote, Op.interpret, known.value_eq])

end Numbers

end Terms

end Stratagem
