import Mathlib.Algebra.Order.BigOperators.Group.List
import Mathlib.Tactic.Ring
import Mathlib.Tactic.FieldSimp
import Stratagem.Proofs.Rewriting.Collection
import Stratagem.Proofs.Rewriting.Rule

/-!
# The value of monomials and linear forms

A collection of monomials has the sum of the values of its monomials as its value. Adding, taking
out, ordering and dropping zeros change the value as they should, and the linear form of a term
has the value of the term. A monomial fits a sort of numbers if its factors are of that sort and
its coefficient is an integer should the sort be that of integers.
-/
namespace Stratagem

namespace Rational

variable {r q : ℚ}

/-- A rational is integral if it is an integer. -/
theorem isIntegral_iff : isIntegral r ↔ ∃ n : ℤ, r = n := by
  rw [isIntegral, beq_iff_eq, Rat.den_eq_one_iff]
  exact ⟨fun same => ⟨r.num, same.symm⟩, by rintro ⟨n, rfl⟩; rfl⟩

/-- Integers are integral. -/
theorem isIntegral_intCast (n : ℤ) : isIntegral (n : ℚ) := isIntegral_iff.mpr ⟨n, rfl⟩

/-- Zero is integral. -/
theorem isIntegral_zero : isIntegral 0 := rfl

/-- One is integral. -/
theorem isIntegral_one : isIntegral 1 := rfl

/-- Sums of integers are integral. -/
theorem isIntegral_add (left : isIntegral r) (right : isIntegral q) : isIntegral (r + q) := by
  obtain ⟨m, rfl⟩ := isIntegral_iff.mp left
  obtain ⟨n, rfl⟩ := isIntegral_iff.mp right
  exact isIntegral_iff.mpr ⟨m + n, by push_cast; rfl⟩

/-- Products of integers are integral. -/
theorem isIntegral_mul (left : isIntegral r) (right : isIntegral q) : isIntegral (r * q) := by
  obtain ⟨m, rfl⟩ := isIntegral_iff.mp left
  obtain ⟨n, rfl⟩ := isIntegral_iff.mp right
  exact isIntegral_iff.mpr ⟨m * n, by push_cast; rfl⟩

/-- Negated integers are integral. -/
theorem isIntegral_neg (known : isIntegral r) : isIntegral (-r) := by
  obtain ⟨n, rfl⟩ := isIntegral_iff.mp known
  exact isIntegral_iff.mpr ⟨-n, by push_cast; rfl⟩

/-- Differences of integers are integral. -/
theorem isIntegral_sub (left : isIntegral r) (right : isIntegral q) : isIntegral (r - q) := by
  rw [sub_eq_add_neg]
  exact isIntegral_add left (isIntegral_neg right)

/-- Powers of integers are integral. -/
theorem isIntegral_pow (known : isIntegral r) (k : ℕ) : isIntegral (r ^ k) := by
  obtain ⟨n, rfl⟩ := isIntegral_iff.mp known
  exact isIntegral_iff.mpr ⟨n ^ k, by push_cast; rfl⟩

end Rational

/-- The value of a monomial, from the values of its factors. -/
noncomputable def Monomial.eval (v : TermId → ℝ) (m : Monomial) : ℝ :=
  m.coeff * (m.product.map v).prod

/-- A monomial of a sort of numbers: its coefficient is an integer if the sort is that of integers,
and it has factors, which are of the sort. -/
structure Monomial.Fits (s : Store) (Γ : Signature) (isInt : Bool) (m : Monomial) : Prop where
  /-- The coefficient is an integer if the sort is that of integers. -/
  integral : isInt → Rational.isIntegral m.coeff
  /-- There is a factor. -/
  some : m.product ≠ []
  /-- The factors are of the sort. -/
  factors : s.Numbers Γ isInt m.product

namespace Monomials

variable {v : TermId → ℝ} {m : Monomials} {s : Store} {Γ : Signature} {isInt : Bool}

/-- The sum of the values of monomials. -/
noncomputable def sumOf (v : TermId → ℝ) (monomials : List Monomial) : ℝ :=
  (monomials.map (·.eval v)).sum

/-- The value of a collection of monomials. -/
noncomputable def eval (v : TermId → ℝ) (m : Monomials) : ℝ := sumOf v m.toList

/-- All monomials of a collection fit a sort of numbers. -/
def Fits (s : Store) (Γ : Signature) (isInt : Bool) (m : Monomials) : Prop :=
  ∀ e ∈ m.toList, e.Fits s Γ isInt

@[simp] theorem sumOf_nil : sumOf v [] = 0 := rfl

@[simp] theorem sumOf_cons (e : Monomial) (rest : List Monomial) :
    sumOf v (e :: rest) = e.eval v + sumOf v rest := List.sum_cons

@[simp] theorem sumOf_append (left right : List Monomial) :
    sumOf v (left ++ right) = sumOf v left + sumOf v right := by
  simp [sumOf]

/-- The empty collection has the value zero. -/
@[simp] theorem eval_empty : eval v {} = 0 := rfl

/-- The empty collection fits every sort. -/
theorem fits_empty : Fits s Γ isInt {} := nofun

/-- Adding a monomial adds its value. -/
@[simp] theorem eval_add (c : ℚ) (product : PowerProduct) :
    eval v (m.add c product) = eval v m + Monomial.eval v ⟨c, product⟩ := by
  unfold eval
  obtain ⟨before, d, after, whole, _, added⟩ | ⟨_, added⟩ := m.add_cases c product
  · rw [whole, added, sumOf_append, sumOf_append, sumOf_cons, sumOf_cons, Monomial.eval,
      Monomial.eval, Monomial.eval]
    push_cast
    ring
  · rw [added, sumOf_append, sumOf_cons, sumOf_nil, add_zero]

/-- Adding a monomial keeps a property of the power products. -/
theorem forall_product_add {Q : PowerProduct → Prop} {product : PowerProduct}
    (known : ∀ e ∈ m.toList, Q e.product) (c : ℚ) (new : Q product) :
    ∀ e ∈ (m.add c product).toList, Q e.product :=
  forall_add (P := fun e => Q e.product) known new fun _ old => old

/-- Adding a monomial that fits keeps the fit. -/
theorem Fits.add {c : ℚ} {product : PowerProduct} (known : m.Fits s Γ isInt)
    (new : Monomial.Fits s Γ isInt ⟨c, product⟩) : (m.add c product).Fits s Γ isInt :=
  forall_add known new fun _ old => { old with
    integral := fun int => Rational.isIntegral_add (old.integral int) (new.integral int) }

/-- Dropping zeros keeps the value. -/
@[simp] theorem eval_retainNonzero : eval v m.retainNonzero = eval v m := by
  unfold eval
  rw [toList_retainNonzero]
  induction m.toList with
  | nil => rfl
  | cons e rest tail =>
    rw [List.filter_cons]
    split
    · rw [sumOf_cons, sumOf_cons, tail]
    · next zero =>
      have none : e.coeff = 0 := by simpa using zero
      rw [tail, sumOf_cons, Monomial.eval, none]
      simp

/-- Dropping zeros leaves members of the collection. -/
theorem mem_retainNonzero {e : Monomial} (member : e ∈ m.retainNonzero.toList) :
    e ∈ m.toList ∧ e.coeff ≠ 0 := by
  rw [toList_retainNonzero, List.mem_filter, decide_eq_true_eq] at member
  exact member

/-- Dropping zeros keeps the fit. -/
theorem Fits.retainNonzero (known : m.Fits s Γ isInt) : m.retainNonzero.Fits s Γ isInt :=
  fun e member => known e (mem_retainNonzero member).1

/-- Ordering leaves the same monomials as dropping zeros. -/
theorem sort_perm (m : Monomials) : m.sort.toList.Perm m.retainNonzero.toList :=
  (List.mergeSort_perm _ _).filter _

/-- Ordering leaves members of the collection. -/
theorem mem_sort {e : Monomial} (member : e ∈ m.sort.toList) : e ∈ m.toList ∧ e.coeff ≠ 0 :=
  mem_retainNonzero (m.sort_perm.mem_iff.mp member)

/-- Ordering keeps the value. -/
@[simp] theorem eval_sort : eval v m.sort = eval v m := by
  rw [← eval_retainNonzero (m := m)]
  exact (m.sort_perm.map _).sum_eq

/-- Taking out a monomial splits its value off. -/
theorem eval_take (product : PowerProduct) :
    eval v m =
      Monomial.eval v ⟨(m.take product).1.getD 0, product⟩ + eval v (m.take product).2 := by
  unfold take eval
  obtain ⟨before, d, after, whole, coeff, blanked⟩ | ⟨coeff, same⟩ := m.blank_cases product
  · rw [whole, blanked, coeff, sumOf_append, sumOf_append, sumOf_cons, sumOf_cons]
    simp only [Option.getD_some, Monomial.eval, Rat.cast_zero]
    ring
  · rw [coeff, same]
    simp [Monomial.eval]

/-- Every factor of every monomial has a property. -/
def All (P : TermId → Prop) (m : Monomials) : Prop := ∀ e ∈ m.toList, ∀ f ∈ e.product, P f

section All

variable {P : TermId → Prop}

/-- There are no factors in the empty collection. -/
theorem all_empty : All P {} := nofun

/-- A property of more factors. -/
theorem All.imp {Q : TermId → Prop} (known : m.All P) (follows : ∀ f, P f → Q f) : m.All Q :=
  fun e member f factor => follows f (known e member f factor)

/-- Adding a monomial whose factors have the property. -/
theorem All.add {product : PowerProduct} (known : m.All P) (c : ℚ) (new : ∀ f ∈ product, P f) :
    (m.add c product).All P :=
  forall_product_add (Q := fun product => ∀ f ∈ product, P f) known c new

/-- Dropping zeros. -/
theorem All.retainNonzero (known : m.All P) : m.retainNonzero.All P :=
  fun e member => known e (mem_retainNonzero member).1

/-- Ordering. -/
theorem All.sort (known : m.All P) : m.sort.All P :=
  fun e member => known e (mem_sort member).1

/-- Taking out a monomial. -/
theorem All.take (known : m.All P) (product : PowerProduct) : (m.take product).2.All P :=
  forall_blank (P := fun e => ∀ f ∈ e.product, P f) known fun _ old => old

/-- Adding up monomials whose factors have the property. -/
theorem All.foldl_add {terms : List Monomial} (known : m.All P)
    (each : ∀ e ∈ terms, ∀ f ∈ e.product, P f) (scale : Monomial → ℚ) :
    (terms.foldl (fun all e => all.add (scale e) e.product) m).All P :=
  List.foldlRecOn (motive := All P) terms _ known
    fun _ known e member => known.add (scale e) (each e member)

end All

/-- Every monomial is the one of its power product. -/
structure Apart (m : Monomials) : Prop where
  /-- The power product of every monomial has a coefficient. -/
  live : ∀ e ∈ m.toList, (m.coeff? e.product).isSome
  /-- The power products differ. -/
  nodup : (m.toList.map (·.product)).Nodup

/-- The empty collection has no monomials. -/
theorem apart_empty : Apart {} := ⟨nofun, .nil⟩

/-- Adding a monomial keeps power products apart. -/
theorem Apart.add (apart : m.Apart) (c : ℚ) (product : PowerProduct) :
    (m.add c product).Apart where
  live := by
    refine forall_product_add (Q := fun other => ((m.add c product).coeff? other).isSome)
      (fun e member => ?_) c ?_
    · rw [coeff?_add]
      split
      · rfl
      · exact apart.live e member
    · rw [coeff?_add, if_pos rfl]
      rfl
  nodup := by
    have old := apart.nodup
    obtain ⟨before, d, after, whole, _, added⟩ | ⟨unknown, added⟩ := m.add_cases c product
    · rw [whole, List.map_append, List.map_cons] at old
      rw [added, List.map_append, List.map_cons]
      exact old
    · rw [added, List.map_append]
      refine List.nodup_append.mpr ⟨old, List.nodup_singleton _, ?_⟩
      intro other there last member
      obtain ⟨e, inside, rfl⟩ := List.mem_map.mp there
      obtain rfl : last = product := by simpa using member
      rintro rfl
      have known := apart.live e inside
      rw [unknown] at known
      cases known

/-- Dropping zeros keeps power products apart. -/
theorem Apart.retainNonzero (apart : m.Apart) : m.retainNonzero.Apart where
  live e member := by
    rw [coeff?_of_mem member (mem_retainNonzero member).2]
    rfl
  nodup := apart.nodup.sublist (List.filter_sublist.map _)

end Monomials

namespace Store

variable {s : Store} {Γ : Signature} {I : Assignment} {t : TermId} {isInt : Bool}

/-- The value of a literal is the number it stands for. -/
theorem num_of_numeral? {r : ℚ} (literal : s.numeral? t = some r) : s.num I t = r := by
  unfold numeral? at literal
  rw [num, value_eq]
  split at literal <;> simp_all [Op.denote, Op.interpret, Rational.ofInt]
  subst literal
  push_cast
  rfl

/-- The value of a sum is the sum of the values. -/
theorem num_of_add (head : s.op t = .add) : s.num I t = ((s.args t).map (s.num I)).sum := by
  rw [num, value_eq, head]
  simp only [Op.denote, Op.interpret, List.map_map, Value.num_number]
  rfl

/-- The value of a product is the product of the values. -/
theorem num_of_mul (head : s.op t = .mul) : s.num I t = ((s.args t).map (s.num I)).prod := by
  rw [num, value_eq, head]
  simp only [Op.denote, Op.interpret, List.map_map, Value.num_number]
  rfl

/-- The sum of the values of flattened summands is the value of the term. -/
theorem sum_flattenTo (depth : ℕ) (t : TermId) :
    ((s.flattenTo .add depth t).map (s.num I)).sum = s.num I t := by
  induction depth generalizing t with
  | zero => simp [flattenTo]
  | succ depth each =>
    unfold flattenTo
    split
    · next head =>
      rw [num_of_add head, List.flatMap_def, List.map_flatten, List.sum_flatten, List.map_map,
        List.map_map]
      exact congrArg List.sum (List.map_congr_left fun a _ => each a)
    · simp

/-- The arguments of a well-sorted sum or product are numbers of its sort. -/
theorem WellSorted.numbers_of_op (sorted : s.WellSorted Γ t) (same : s.sortOf t = .number isInt)
    (head : s.op t = .add ∨ s.op t = .mul) :
    s.Numbers Γ isInt (s.args t) := by
  have fits := sorted.fits
  intro a member
  refine ⟨sorted.of_mem_args member, ?_⟩
  obtain sum | product := head
  · rw [sum, same] at fits
    exact fits.2.2 a member
  · rw [product, same] at fits
    exact fits.2.2 a member

/-- The members of a flattened sum or product are numbers of its sort. -/
theorem WellSorted.numbers_of_flattenTo {head : Op} (either : head = .add ∨ head = .mul)
    (depth : ℕ) {t : TermId} (sorted : s.WellSorted Γ t) (same : s.sortOf t = .number isInt) :
    s.Numbers Γ isInt (s.flattenTo head depth t) := by
  induction depth generalizing t with
  | zero =>
    intro a member
    obtain rfl : a = t := by simpa [flattenTo] using member
    exact ⟨sorted, same⟩
  | succ depth each =>
    unfold flattenTo
    split
    · next found =>
      intro a member
      obtain ⟨b, inside, member⟩ := List.mem_flatMap.mp member
      have inner := sorted.numbers_of_op same (by rw [found]; exact either) b inside
      exact each inner.1 inner.2 a member
    · intro a member
      obtain rfl : a = t := by simpa using member
      exact ⟨sorted, same⟩

/-- A term has the value of its monomial. -/
theorem eval_monomial (t : TermId) : (s.monomial t).eval (s.num I) = s.num I t := by
  unfold monomial
  split
  · next view =>
    obtain ⟨head, empty⟩ := view_eq_iff.mp view
    rw [num_of_mul head, empty]
    simp [Monomial.eval]
  · next first rest view =>
    obtain ⟨head, arguments⟩ := view_eq_iff.mp view
    rw [num_of_mul head, arguments]
    split
    · next c literal => simp [Monomial.eval, num_of_numeral? literal]
    · simp [Monomial.eval]
  · simp [Monomial.eval]

/-- The monomial of a number fits its sort. -/
theorem WellSorted.fits_monomial (sorted : s.WellSorted Γ t) (same : s.sortOf t = .number isInt) :
    (s.monomial t).Fits s Γ isInt := by
  have one : isInt → Rational.isIntegral 1 := fun _ => Rational.isIntegral_one
  have fits := sorted.fits
  unfold monomial
  split
  · next view =>
    obtain ⟨head, arguments⟩ := view_eq_iff.mp view
    rw [head, arguments] at fits
    simp [Store.Fits] at fits
  · next first rest view =>
    obtain ⟨head, arguments⟩ := view_eq_iff.mp view
    have numbers := sorted.numbers_of_op same (.inr head)
    rw [arguments, Numbers, List.forall_mem_cons] at numbers
    split
    · next c literal =>
      have known := Number.self numbers.1.1 numbers.1.2 ⟨fun _ => True, fun _ => 0, fun _ => 0⟩
      refine ⟨(known.of_numeral? literal).2, ?_, numbers.2⟩
      rintro rfl
      rw [head, arguments] at fits
      simp [Store.Fits] at fits
    · exact ⟨one, List.cons_ne_nil first rest, List.forall_mem_cons.mpr numbers⟩
  · exact ⟨one, List.cons_ne_nil t [], List.forall_mem_singleton.mpr ⟨sorted, same⟩⟩

end Store

namespace LinearForm

variable {s : Store} {Γ : Signature} {I : Assignment} {t : TermId} {isInt : Bool}

/-- The value of a linear form. -/
noncomputable def eval (v : TermId → ℝ) (form : LinearForm) : ℝ :=
  form.constant + form.monomials.eval v

/-- The constant is an integer if the sort is that of integers, and the monomials fit the sort. -/
def Fits (s : Store) (Γ : Signature) (isInt : Bool) (form : LinearForm) : Prop :=
  (isInt → Rational.isIntegral form.constant) ∧ form.monomials.Fits s Γ isInt

/-- Adding a summand adds its value. -/
theorem eval_addTerm (form : LinearForm) (t : TermId) :
    (form.addTerm s t).eval (s.num I) = form.eval (s.num I) + s.num I t := by
  unfold addTerm eval
  split
  · next r literal =>
    rw [Store.num_of_numeral? literal]
    push_cast
    ring
  · rw [Monomials.eval_add, ← Store.eval_monomial t]
    ring

/-- Adding a number of the sort keeps the fit. -/
theorem Fits.addTerm {form : LinearForm} (known : form.Fits s Γ isInt) (sorted : s.WellSorted Γ t)
    (same : s.sortOf t = .number isInt) : (form.addTerm s t).Fits s Γ isInt := by
  unfold LinearForm.addTerm
  split
  · next r literal =>
    have number := Store.Number.self sorted same ⟨fun _ => True, fun _ => 0, fun _ => 0⟩
    refine ⟨fun int => ?_, known.2⟩
    exact Rational.isIntegral_add (known.1 int) ((number.of_numeral? literal).2 int)
  · exact ⟨known.1, known.2.add (sorted.fits_monomial same)⟩

end LinearForm

namespace Store

variable {s : Store} {Γ : Signature} {I : Assignment} {t : TermId} {isInt : Bool}

/-- A term has the value of its linear form. -/
theorem eval_linearForm (t : TermId) : (s.linearForm t).eval (s.num I) = s.num I t := by
  have sum : ∀ (terms : List TermId) (form : LinearForm),
      (terms.foldl (LinearForm.addTerm s) form).eval (s.num I) =
        form.eval (s.num I) + (terms.map (s.num I)).sum := by
    intro terms
    induction terms with
    | nil => simp
    | cons first rest tail =>
      intro form
      rw [List.foldl_cons, tail, LinearForm.eval_addTerm, List.map_cons, List.sum_cons]
      ring
  have total := sum (s.summands t) ⟨0, {}⟩
  have parts : ((s.summands t).map (s.num I)).sum = s.num I t := sum_flattenTo (t + 1) t
  unfold linearForm
  simpa [LinearForm.eval, parts] using total

/-- The linear form of a number fits its sort. -/
theorem WellSorted.fits_linearForm (sorted : s.WellSorted Γ t)
    (same : s.sortOf t = .number isInt) : (s.linearForm t).Fits s Γ isInt := by
  have numbers := sorted.numbers_of_flattenTo (.inl rfl) (t + 1) same
  have start : LinearForm.Fits s Γ isInt ⟨0, {}⟩ :=
    ⟨fun _ => Rational.isIntegral_zero, Monomials.fits_empty⟩
  have all := List.foldlRecOn (motive := LinearForm.Fits s Γ isInt) (s.summands t)
    (LinearForm.addTerm s) start
    fun form known a member => known.addTerm (numbers a member).1 (numbers a member).2
  exact ⟨all.1, all.2.retainNonzero⟩

end Store
section Parts

variable {s : Store} {P : TermId → Prop} {t : TermId}

namespace Store

/-- What holds of a term and, with it, of the arguments holds of all that it is taken apart to. -/
theorem flattenTo_all (down : ∀ a, P a → ∀ b ∈ s.args a, P b) (head : Op) (depth : ℕ)
    (known : P t) : ∀ a ∈ s.flattenTo head depth t, P a := by
  induction depth generalizing t with
  | zero => simpa [flattenTo] using known
  | succ depth deeper =>
    unfold flattenTo
    split
    · intro a member
      obtain ⟨b, argument, member⟩ := List.mem_flatMap.mp member
      exact deeper (down t known b argument) a member
    · simpa using known

/-- The factors of the monomial of a term. -/
theorem monomial_all (down : ∀ a, P a → ∀ b ∈ s.args a, P b) (known : P t) :
    ∀ f ∈ (s.monomial t).product, P f := by
  unfold monomial
  split
  · exact nofun
  · next first rest view =>
    have arguments : ∀ a ∈ first :: rest, P a := (view_eq_iff.mp view).2 ▸ down t known
    split
    · exact (List.forall_mem_cons.mp arguments).2
    · exact arguments
  · exact List.forall_mem_singleton.mpr known

/-- The factors of the linear form of a term. -/
theorem linearForm_all (down : ∀ a, P a → ∀ b ∈ s.args a, P b) (known : P t) :
    (s.linearForm t).monomials.All P := by
  refine Monomials.All.retainNonzero ?_
  refine List.foldlRecOn (motive := fun form : LinearForm => form.monomials.All P)
    (s.summands t) _ Monomials.all_empty fun form known' a member => ?_
  unfold LinearForm.addTerm
  split
  · exact known'
  · exact known'.add _ (monomial_all down (flattenTo_all down .add (t + 1) known a member))

end Store

end Parts

end Stratagem
