import Stratagem.Proofs.Rewriting.Monomial
import Stratagem.Proofs.Rewriting.Numeral

/-!
# The value of monomials and linear forms in every semantics

Sums and products are read alike by all semantics, so in each of them the members of a flattened
sum add up to its value, a term has the value of its monomial, and of its linear form.
-/
namespace Stratagem.Semantics

open Store (Extends)

/-- A monomial of a sort of numbers: its coefficient is an integer if the sort is that of integers,
and it has factors, which are of the sort. -/
structure Fits (M : Semantics) (s : Store) (isInt : Bool) (m : Monomial) : Prop where
  /-- The coefficient is an integer if the sort is that of integers. -/
  integral : isInt → Rational.isIntegral m.coeff
  /-- There is a factor. -/
  some : m.product ≠ []
  /-- The factors are of the sort. -/
  factors : M.Numbers s isInt m.product

/-- All monomials of a collection are of a sort of numbers. -/
def AllFit (M : Semantics) (s : Store) (isInt : Bool) (m : Monomials) : Prop :=
  ∀ e ∈ m.toList, M.Fits s isInt e

variable {M : Semantics} {s after : Store} {t a : TermId} {isInt : Bool} {m : Monomials}

/-- A monomial is of a sort still when the store has grown. -/
theorem Fits.mono {m : Monomial} (known : M.Fits s isInt m) (grown : s.Extends after) :
    M.Fits after isInt m :=
  ⟨known.integral, known.some, known.factors.mono grown⟩

/-- A monomial keeps its value when the store grows. -/
theorem Fits.eval_eq {m : Monomial} (known : M.Fits s isInt m) (grown : s.Extends after) :
    m.eval (M.num after) = m.eval (M.num s) := by
  rw [Monomial.eval, Monomial.eval, known.factors.map_num grown]

/-- Monomials keep their values when the store grows. -/
theorem sumOf_eq {monomials : List Monomial} (known : ∀ m ∈ monomials, M.Fits s isInt m)
    (grown : s.Extends after) :
    Monomials.sumOf (M.num after) monomials = Monomials.sumOf (M.num s) monomials :=
  congrArg List.sum (List.map_congr_left fun m member => (known m member).eval_eq grown)

namespace AllFit

/-- The empty collection is of every sort. -/
theorem empty : M.AllFit s isInt {} := List.forall_mem_nil _

/-- Adding a monomial of the sort. -/
theorem add {c : ℚ} {product : PowerProduct} (known : M.AllFit s isInt m)
    (new : M.Fits s isInt ⟨c, product⟩) : M.AllFit s isInt (m.add c product) :=
  Monomials.forall_add known new fun _ old => { old with
    integral := fun int => Rational.isIntegral_add (old.integral int) (new.integral int) }

/-- Dropping zeros. -/
theorem retainNonzero (known : M.AllFit s isInt m) : M.AllFit s isInt m.retainNonzero :=
  fun e member => known e (Monomials.mem_retainNonzero member).1

/-- Ordering. -/
theorem sort (known : M.AllFit s isInt m) : M.AllFit s isInt m.sort :=
  fun e member => known e (Monomials.mem_sort member).1

/-- Taking out a monomial. -/
theorem take (known : M.AllFit s isInt m) (product : PowerProduct) :
    M.AllFit s isInt (m.take product).2 :=
  Monomials.forall_blank known fun _ old =>
    { old with integral := fun _ => Rational.isIntegral_zero }

end AllFit

/-- The value of a sum is the sum of the values. -/
theorem num_of_add (sorted : M.Sorted s t) (head : s.op t = .add) :
    M.num s t = ((s.args t).map (M.num s)).sum := by
  rw [num, M.value_eq sorted (head ▸ rfl), head]
  simp only [Op.interpret, List.map_map, Value.num_number]
  rfl

/-- The value of a product is the product of the values. -/
theorem num_of_mul (sorted : M.Sorted s t) (head : s.op t = .mul) :
    M.num s t = ((s.args t).map (M.num s)).prod := by
  rw [num, M.value_eq sorted (head ▸ rfl), head]
  simp only [Op.interpret, List.map_map, Value.num_number]
  rfl

/-- The arguments of a sum or product are numbers of its sort. -/
theorem numbers_of_op (sorted : M.Sorted s t) (same : s.sortOf t = .number isInt)
    (head : s.op t = .add ∨ s.op t = .mul) : M.Numbers s isInt (s.args t) := by
  have common : (s.op t).isCommon := by obtain sum | product := head <;> simp [*, Op.isCommon]
  have fits := M.fits sorted common
  intro a member
  refine ⟨M.of_mem_args sorted common member, ?_⟩
  obtain sum | product := head
  · rw [sum, same] at fits
    exact fits.2.2 a member
  · rw [product, same] at fits
    exact fits.2.2 a member

/-- A sum or product has arguments. -/
theorem args_ne_nil (sorted : M.Sorted s t) (head : s.op t = .add ∨ s.op t = .mul) :
    s.args t ≠ [] := by
  intro empty
  obtain sum | product := head
  · have fits := M.fits sorted (sum ▸ rfl)
    rw [sum, empty] at fits
    simp [Store.Fits] at fits
  · have fits := M.fits sorted (product ▸ rfl)
    rw [product, empty] at fits
    simp [Store.Fits] at fits

/-- The members of a flattened sum or product are numbers of its sort. -/
theorem numbers_of_flattenTo {head : Op} (either : head = .add ∨ head = .mul) (depth : ℕ)
    {t : TermId} (sorted : M.Sorted s t) (same : s.sortOf t = .number isInt) :
    M.Numbers s isInt (s.flattenTo head depth t) := by
  induction depth generalizing t with
  | zero =>
    intro a member
    obtain rfl : a = t := by simpa [Store.flattenTo] using member
    exact ⟨sorted, same⟩
  | succ depth each =>
    unfold Store.flattenTo
    split
    · next found =>
      intro a member
      obtain ⟨b, inside, member⟩ := List.mem_flatMap.mp member
      have inner := numbers_of_op sorted same (by rw [found]; exact either) b inside
      exact each inner.1 inner.2 a member
    · intro a member
      obtain rfl : a = t := by simpa using member
      exact ⟨sorted, same⟩

/-- The sum of the values of flattened summands is the value of the term. -/
theorem sum_flattenTo (depth : ℕ) {t : TermId} (sorted : M.Sorted s t) :
    ((s.flattenTo .add depth t).map (M.num s)).sum = M.num s t := by
  induction depth generalizing t with
  | zero => simp [Store.flattenTo]
  | succ depth each =>
    unfold Store.flattenTo
    split
    · next head =>
      rw [num_of_add sorted head, List.flatMap_def, List.map_flatten, List.sum_flatten,
        List.map_map, List.map_map]
      exact congrArg List.sum (List.map_congr_left fun a member =>
        each (M.of_mem_args sorted (head ▸ rfl) member))
    · simp

/-- The product of the values of flattened factors is the value of the term. -/
theorem prod_flattenTo (depth : ℕ) {t : TermId} (sorted : M.Sorted s t) :
    ((s.flattenTo .mul depth t).map (M.num s)).prod = M.num s t := by
  induction depth generalizing t with
  | zero => simp [Store.flattenTo]
  | succ depth each =>
    unfold Store.flattenTo
    split
    · next head =>
      rw [num_of_mul sorted head, List.flatMap_def, List.map_flatten, List.prod_flatten,
        List.map_map, List.map_map]
      exact congrArg List.prod (List.map_congr_left fun a member =>
        each (M.of_mem_args sorted (head ▸ rfl) member))
    · simp

/-- A rational literal has its value. -/
theorem num_of_numeral? {r : ℚ} (sorted : M.Sorted s t) (literal : s.numeral? t = some r) :
    M.num s t = r := by
  obtain ⟨_, known, _⟩ := number_of_numeral? sorted literal
  exact known.num_eq

/-- A term has the value of its monomial. -/
theorem eval_monomial (sorted : M.Sorted s t) : (s.monomial t).eval (M.num s) = M.num s t := by
  unfold Store.monomial
  split
  · next view =>
    obtain ⟨head, empty⟩ := Store.view_eq_iff.mp view
    rw [num_of_mul sorted head, empty]
    simp [Monomial.eval]
  · next first rest view =>
    obtain ⟨head, arguments⟩ := Store.view_eq_iff.mp view
    have lead : M.Sorted s first := M.of_mem_args sorted (head ▸ rfl) (by simp [arguments])
    rw [num_of_mul sorted head, arguments]
    split
    · next c literal => simp [Monomial.eval, num_of_numeral? lead literal]
    · simp [Monomial.eval]
  · simp [Monomial.eval]

/-- The monomial of a number is of its sort. -/
theorem fits_monomial (sorted : M.Sorted s t) (same : s.sortOf t = .number isInt) :
    M.Fits s isInt (s.monomial t) := by
  have one : isInt → Rational.isIntegral 1 := fun _ => Rational.isIntegral_one
  unfold Store.monomial
  split
  · next view =>
    obtain ⟨head, arguments⟩ := Store.view_eq_iff.mp view
    exact absurd arguments (args_ne_nil sorted (.inr head))
  · next first rest view =>
    obtain ⟨head, arguments⟩ := Store.view_eq_iff.mp view
    have numbers := numbers_of_op sorted same (.inr head)
    rw [arguments, Numbers, List.forall_mem_cons] at numbers
    split
    · next c literal =>
      have known := Number.self numbers.1.1 numbers.1.2
      refine ⟨(known.of_numeral? literal).2, ?_, numbers.2⟩
      rintro rfl
      have fits := M.fits sorted (head ▸ rfl)
      rw [head, arguments] at fits
      simp [Store.Fits] at fits
    · exact ⟨one, List.cons_ne_nil first rest, List.forall_mem_cons.mpr numbers⟩
  · exact ⟨one, List.cons_ne_nil t [], List.forall_mem_singleton.mpr ⟨sorted, same⟩⟩

/-- The linear form is of a sort: its constant is an integer if the sort is that of integers, and
the monomials are of the sort. -/
def FormFits (M : Semantics) (s : Store) (isInt : Bool) (form : LinearForm) : Prop :=
  (isInt → Rational.isIntegral form.constant) ∧ M.AllFit s isInt form.monomials

/-- Adding a summand adds its value. -/
theorem eval_addTerm (form : LinearForm) (sorted : M.Sorted s t) :
    (form.addTerm s t).eval (M.num s) = form.eval (M.num s) + M.num s t := by
  unfold LinearForm.addTerm LinearForm.eval
  split
  · next r literal =>
    rw [num_of_numeral? sorted literal]
    push_cast
    ring
  · rw [Monomials.eval_add, ← eval_monomial sorted]
    ring

/-- Adding a number of the sort. -/
theorem FormFits.addTerm {form : LinearForm} (known : M.FormFits s isInt form)
    (sorted : M.Sorted s t) (same : s.sortOf t = .number isInt) :
    M.FormFits s isInt (form.addTerm s t) := by
  unfold LinearForm.addTerm
  split
  · next r literal =>
    refine ⟨fun int => ?_, known.2⟩
    exact Rational.isIntegral_add (known.1 int)
      (((Number.self sorted same).of_numeral? literal).2 int)
  · exact ⟨known.1, known.2.add (fits_monomial sorted same)⟩

/-- A term has the value of its linear form. -/
theorem eval_linearForm (sorted : M.Sorted s t) (same : s.sortOf t = .number isInt) :
    (s.linearForm t).eval (M.num s) = M.num s t := by
  have sum : ∀ (terms : List TermId) (form : LinearForm), M.Numbers s isInt terms →
      (terms.foldl (LinearForm.addTerm s) form).eval (M.num s) =
        form.eval (M.num s) + (terms.map (M.num s)).sum := by
    intro terms
    induction terms with
    | nil => simp
    | cons first rest tail =>
      intro form numbers
      obtain ⟨⟨lead, _⟩, later⟩ := List.forall_mem_cons.mp numbers
      rw [List.foldl_cons, tail _ later, eval_addTerm _ lead, List.map_cons, List.sum_cons]
      ring
  have total := sum (s.summands t) ⟨0, {}⟩ (numbers_of_flattenTo (.inl rfl) (t + 1) sorted same)
  have parts : ((s.summands t).map (M.num s)).sum = M.num s t := sum_flattenTo (t + 1) sorted
  unfold Store.linearForm
  simpa [LinearForm.eval, parts] using total

/-- The linear form of a number is of its sort. -/
theorem fits_linearForm (sorted : M.Sorted s t) (same : s.sortOf t = .number isInt) :
    M.FormFits s isInt (s.linearForm t) := by
  have numbers := numbers_of_flattenTo (.inl rfl) (t + 1) sorted same
  have start : M.FormFits s isInt ⟨0, {}⟩ := ⟨fun _ => Rational.isIntegral_zero, .empty⟩
  have all := List.foldlRecOn (motive := M.FormFits s isInt) (s.summands t)
    (LinearForm.addTerm s) start
    fun form known a member => known.addTerm (numbers a member).1 (numbers a member).2
  exact ⟨all.1, all.2.retainNonzero⟩

/-- The summands of a number are not empty. -/
theorem summands_ne_nil (sorted : M.Sorted s t) : s.summands t ≠ [] := by
  have flatten : ∀ (depth : ℕ) {t : TermId}, M.Sorted s t → s.flattenTo .add depth t ≠ [] := by
    intro depth
    induction depth with
    | zero => simp [Store.flattenTo]
    | succ depth each =>
      intro t sorted
      unfold Store.flattenTo
      split
      · next head =>
        obtain ⟨first, member⟩ :=
          List.exists_mem_of_ne_nil _ (args_ne_nil sorted (.inl head))
        intro empty
        exact each (M.of_mem_args sorted (head ▸ rfl) member)
          (List.flatMap_eq_nil_iff.mp empty first member)
      · simp
  exact flatten (t + 1) sorted

end Stratagem.Semantics
