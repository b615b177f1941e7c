import Mathlib.LinearAlgebra.Finsupp.LinearCombination
import Stratagem.Probe.Statistic
import Stratagem.Proofs.Term.Occurrence

/-!
# Linear fragments

A goal lies in a fragment when every one of its subterms is admitted on its own. Without nonlinear
terms a product has at most one factor that is not a literal, and there are no powers. By induction
over terms this makes the goal linear as a whole: the degree of a subterm is at most one, and a
subterm of sums, differences, negations and products denotes an affine function of its constants.
-/
namespace Stratagem

/-- The fragments of linear arithmetic. -/
def Fragment.linear : List Fragment := [qfLia, qfLra, qfLira, ilp, mip]

/-- Heads of terms that are built from constants and literals by sums, differences, negation and
products. -/
def Op.isRing : Op → Bool
  | var _ | int _ | real _ | add | sub | neg | mul => true
  | _ => false

namespace Store

variable {s : Store} {t : TermId}

/-- A term that does not multiply terms that are not literals, its arguments aside. -/
structure LinearAt (s : Store) (t : TermId) : Prop where
  /-- There is at most one factor that is not a literal. -/
  product : s.op t = .mul → (s.args t).countP (fun a => !s.isNumeral a) ≤ 1
  /-- The term is not a power. -/
  power : s.op t ≠ .power

/-- A term that does not multiply terms that are not literals. -/
def Linear (s : Store) (t : TermId) : Prop := ∀ c, s.Occurs c t → s.LinearAt c

/-- The arguments of a linear term are linear. -/
theorem Linear.of_mem_args {a : TermId} (linear : s.Linear t) (member : a ∈ s.args t) :
    s.Linear a := fun c below => linear c (.there member below)

section Degree

/-- The largest of several numbers up to a bound is up to the bound. -/
theorem foldl_max_le {values : List ℕ} {bound : ℕ} (each : ∀ n ∈ values, n ≤ bound) :
    values.foldl Nat.max 0 ≤ bound := by
  refine List.foldlRecOn (motive := (· ≤ bound)) values Nat.max (Nat.zero_le bound) ?_
  intro most small n member
  exact Nat.max_le.mpr ⟨small, each n member⟩

/-- A sum of words on top of another is at most the sum. -/
theorem foldl_word_le (values : List ℕ) (total : ℕ) :
    values.foldl (fun total n => (total + n) % Word.modulus) total ≤ total + values.sum := by
  induction values generalizing total with
  | nil => exact Nat.le_refl _
  | cons n rest later =>
    have reduced := Nat.mod_le (total + n) Word.modulus
    have known := later ((total + n) % Word.modulus)
    rw [List.foldl_cons, List.sum_cons]
    omega

/-- The sum of words is at most the sum. -/
theorem wordSum_le (values : List ℕ) : Word.sum values ≤ values.sum :=
  (foldl_word_le values 0).trans_eq (Nat.zero_add _)

/-- The sum of numbers up to one is at most the number of members that are not zero. -/
theorem sum_le_countP {args : List TermId} {f : TermId → ℕ} {p : TermId → Bool}
    (small : ∀ a ∈ args, f a ≤ 1) (zero : ∀ a ∈ args, p a = false → f a = 0) :
    (args.map f).sum ≤ args.countP p := by
  induction args with
  | nil => exact Nat.le_refl _
  | cons a rest later =>
    obtain ⟨here, others⟩ := List.forall_mem_cons.mp small
    obtain ⟨none, nothing⟩ := List.forall_mem_cons.mp zero
    have known := later others nothing
    rw [List.map_cons, List.sum_cons, List.countP_cons]
    cases counted : p a with
    | true =>
      rw [if_pos rfl]
      omega
    | false =>
      rw [none counted, Nat.zero_add]
      exact known.trans (Nat.le_add_right _ _)

/-- A literal has degree zero. -/
theorem degreeTo_of_isNumeral {depth : ℕ} (literal : s.isNumeral t = true) :
    s.degreeTo (depth + 1) t = 0 := by
  unfold isNumeral numeral? at literal
  unfold degreeTo view
  dsimp only
  split at literal
  · next n head =>
    rw [show (s.node t).op = .int n from head]
  · next r head =>
    rw [show (s.node t).op = .real r from head]
  · cases literal

/-- A linear term has a degree of at most one. -/
theorem degreeTo_le_one {depth : ℕ} (deep : t < depth) (linear : s.Linear t) :
    s.degreeTo depth t ≤ 1 := by
  induction depth generalizing t with
  | zero => exact absurd deep (Nat.not_lt_zero t)
  | succ depth deeper =>
    have arguments : ∀ a ∈ s.args t, s.degreeTo depth a ≤ 1 := fun a member =>
      deeper ((lt_of_mem_args member).trans_le (Nat.le_of_lt_succ deep)) (linear.of_mem_args member)
    have largest : ((s.args t).map (s.degreeTo depth)).foldl Nat.max 0 ≤ 1 :=
      foldl_max_le (List.forall_mem_map.mpr arguments)
    have view : s.view t = (s.op t, s.args t) := rfl
    rw [degreeTo, view]
    cases head : s.op t with
    | add => exact largest
    | sub => exact largest
    | neg => exact largest
    | mul =>
      have literals : ∀ a ∈ s.args t, (!s.isNumeral a) = false → s.degreeTo depth a = 0 := by
        intro a member literal
        obtain ⟨below, rfl⟩ := Nat.exists_eq_succ_of_ne_zero (Nat.ne_zero_of_lt
          ((lt_of_mem_args member).trans_le (Nat.le_of_lt_succ deep)))
        exact degreeTo_of_isNumeral (by simpa using literal)
      have few := (linear t .here).product head
      exact ((wordSum_le _).trans (sum_le_countP arguments literals)).trans few
    | power => exact absurd head (linear t .here).power
    | int => exact Nat.zero_le 1
    | real => exact Nat.zero_le 1
    | algebraic => exact Nat.zero_le 1
    | _ => exact Nat.le_refl 1

end Degree

section Affine

/-- A term is built from constants and literals by sums, differences, negation and products. -/
def OverRing (s : Store) (t : TermId) : Prop := ∀ c, s.Occurs c t → (s.op c).isRing = true

/-- The arguments of such a term are built so too. -/
theorem OverRing.of_mem_args {a : TermId} (built : s.OverRing t) (member : a ∈ s.args t) :
    s.OverRing a := fun c below => built c (.there member below)

/-- The constants that occur in a term. -/
def constantsIn (s : Store) (t : TermId) : Set TermId :=
  {x | s.Occurs x t ∧ ∃ name, s.op x = .var name}

/-- The number that a term denotes, by assignments. -/
noncomputable def reading (s : Store) (t : TermId) : Assignment → ℝ := fun I => s.num I t

/-- The affine functions of constants with rational coefficients. -/
noncomputable def affine (s : Store) (constants : Set TermId) : Submodule ℚ (Assignment → ℝ) :=
  Submodule.span ℚ (insert 1 (s.reading '' constants))

/-- An affine function is a rational and a sum of rational multiples of constants. -/
theorem mem_affine {constants : Set TermId} {f : Assignment → ℝ} (member : f ∈ s.affine constants) :
    ∃ (offset : ℚ) (coeff : TermId →₀ ℚ), (∀ x ∈ coeff.support, x ∈ constants) ∧
      ∀ I, f I = offset + coeff.sum fun x c => c * s.num I x := by
  obtain ⟨offset, g, combined, rfl⟩ := Submodule.mem_span_insert.mp member
  obtain ⟨coeff, supported, rfl⟩ := (Finsupp.mem_span_image_iff_linearCombination ℚ).mp combined
  refine ⟨offset, coeff, fun x inside => (Finsupp.mem_supported ℚ coeff).mp supported inside, ?_⟩
  intro I
  simp only [Finsupp.linearCombination_apply, Finsupp.sum, Pi.add_apply, Finset.sum_apply,
    Pi.smul_apply, Pi.one_apply, Rat.smul_def, mul_one, reading]

/-- Affine functions of fewer constants. -/
theorem affine_mono {some all : Set TermId} (among : some ⊆ all) : s.affine some ≤ s.affine all :=
  Submodule.span_mono (Set.insert_subset_insert (Set.image_mono among))

/-- A rational is an affine function. -/
theorem const_mem_affine (constants : Set TermId) (q : ℚ) :
    (fun _ => (q : ℝ)) ∈ s.affine constants := by
  have one : (1 : Assignment → ℝ) ∈ s.affine constants :=
    Submodule.subset_span (Set.mem_insert ..)
  have scaled := (s.affine constants).smul_mem q one
  convert scaled using 1
  funext I
  simp [Rat.smul_def]

/-- A literal denotes its value. -/
theorem exists_num_eq (literal : s.isNumeral t = true) : ∃ q : ℚ, ∀ I, s.num I t = q := by
  unfold isNumeral numeral? at literal
  split at literal
  · next n head =>
    refine ⟨n, fun I => ?_⟩
    rw [num, value_eq, head]
    exact (Rat.cast_intCast n).symm
  · next r head =>
    refine ⟨r, fun I => ?_⟩
    rw [num, value_eq, head]
    rfl
  · cases literal

/-- A product of literals is a rational. -/
theorem exists_prod_eq {factors : List TermId} (literals : ∀ a ∈ factors, s.isNumeral a = true) :
    ∃ q : ℚ, ∀ I, (factors.map (s.num I)).prod = q := by
  induction factors with
  | nil => exact ⟨1, fun I => Rat.cast_one.symm⟩
  | cons a rest later =>
    obtain ⟨here, others⟩ := List.forall_mem_cons.mp literals
    obtain ⟨q, value⟩ := exists_num_eq here
    obtain ⟨r, product⟩ := later others
    refine ⟨q * r, fun I => ?_⟩
    rw [List.map_cons, List.prod_cons, value, product, Rat.cast_mul]

/-- A product with at most one factor that is not a literal is affine if its factors are. -/
theorem prod_mem_affine {constants : Set TermId} {factors : List TermId}
    (few : factors.countP (fun a => !s.isNumeral a) ≤ 1)
    (each : ∀ a ∈ factors, s.reading a ∈ s.affine constants) :
    (fun I => (factors.map (s.num I)).prod) ∈ s.affine constants := by
  induction factors with
  | nil => exact Submodule.subset_span (Set.mem_insert ..)
  | cons a rest later =>
    obtain ⟨here, others⟩ := List.forall_mem_cons.mp each
    rw [List.countP_cons] at few
    cases literal : s.isNumeral a with
    | true =>
      obtain ⟨q, value⟩ := exists_num_eq literal
      have scaled := (s.affine constants).smul_mem q (later (by omega) others)
      convert scaled using 1
      funext I
      rw [List.map_cons, List.prod_cons, value, Pi.smul_apply, Rat.smul_def]
    | false =>
      -- the other factors are literals, and this one is multiplied by their product
      have none : rest.countP (fun a => !s.isNumeral a) = 0 := by
        simp only [literal, Bool.not_false, if_true] at few
        omega
      have literals : ∀ b ∈ rest, s.isNumeral b = true := by
        simpa using List.countP_eq_zero.mp none
      obtain ⟨q, product⟩ := exists_prod_eq literals
      have scaled := (s.affine constants).smul_mem q here
      convert scaled using 1
      funext I
      rw [List.map_cons, List.prod_cons, product, mul_comm, Pi.smul_apply, Rat.smul_def, reading]

/-- A sum is affine if its summands are. -/
theorem sum_mem_affine {constants : Set TermId} {summands : List TermId}
    (each : ∀ a ∈ summands, s.reading a ∈ s.affine constants) :
    (fun I => (summands.map (s.num I)).sum) ∈ s.affine constants := by
  induction summands with
  | nil => exact Submodule.zero_mem _
  | cons a rest later =>
    obtain ⟨here, others⟩ := List.forall_mem_cons.mp each
    exact Submodule.add_mem _ here (later others)

/-- The number of an application, from the numbers of its arguments. -/
theorem reading_eq (s : Store) (t : TermId) :
    s.reading t = fun I => ((s.op t).denote I (s.sortOf t) ((s.args t).map (s.value I))).num := by
  funext I
  rw [reading, num, value_eq]

/-- A linear term of sums, differences, negations and products denotes an affine function of the
constants that occur in it. -/
theorem reading_mem_affine (linear : s.Linear t) (built : s.OverRing t) :
    s.reading t ∈ s.affine (s.constantsIn t) := by
  induction t using Nat.strongRecOn with
  | ind t smaller =>
    have arguments : ∀ a ∈ s.args t, s.reading a ∈ s.affine (s.constantsIn t) := by
      intro a member
      have among : s.constantsIn a ⊆ s.constantsIn t :=
        fun x inside => ⟨.there member inside.1, inside.2⟩
      exact affine_mono among (smaller a (lt_of_mem_args member) (linear.of_mem_args member)
        (built.of_mem_args member))
    have numbers (I : Assignment) : ((s.args t).map (s.value I)).map Value.num =
        (s.args t).map (s.num I) := List.map_map
    have ring := built t .here
    cases head : s.op t with
    | var name =>
      exact Submodule.subset_span (Set.mem_insert_of_mem _ ⟨t, ⟨.here, name, head⟩, rfl⟩)
    | int n =>
      convert const_mem_affine (s.constantsIn t) (n : ℚ) using 1
      rw [reading_eq, head]
      funext I
      exact (Rat.cast_intCast n).symm
    | real r =>
      convert const_mem_affine (s.constantsIn t) r using 1
      rw [reading_eq, head]
      rfl
    | add =>
      convert sum_mem_affine arguments using 1
      rw [reading_eq, head]
      funext I
      exact congrArg List.sum (numbers I)
    | mul =>
      convert prod_mem_affine ((linear t .here).product head) arguments using 1
      rw [reading_eq, head]
      funext I
      exact congrArg List.prod (numbers I)
    | neg =>
      rw [reading_eq, head]
      match arity : s.args t with
      | [a] => exact Submodule.neg_mem _ (arguments a (by simp [arity]))
      | [] | _ :: _ :: _ => exact Submodule.zero_mem _
    | sub =>
      rw [reading_eq, head]
      match arity : s.args t with
      | [a, b] =>
        exact Submodule.sub_mem _ (arguments a (by simp [arity])) (arguments b (by simp [arity]))
      | [] | [_] | _ :: _ :: _ :: _ => exact Submodule.zero_mem _
    | _ =>
      rw [head] at ring
      cases ring

end Affine

end Store

/-- A fragment without nonlinear terms admits only terms that are linear on their own. -/
theorem Admits.linearAt {s : Store} {t : TermId} {a : Admits} (strict : a.nonlinear = false)
    (admitted : a.term s t = true) : s.LinearAt t := by
  have view : s.view t = (s.op t, s.args t) := rfl
  unfold term at admitted
  rw [view] at admitted
  constructor
  · intro head
    rw [head] at admitted
    simpa [product, strict] using (Bool.and_eq_true_iff.mp admitted).2
  · intro head
    rw [head] at admitted
    simp [strict] at admitted

namespace Goal

variable {g : Goal} {s : Store} {fragment : Fragment}

/-- A goal lies in a fragment if its formulas are comparisons, where the fragment asks for that, and
every term that occurs in one of them is admitted. -/
theorem inFragment_iff (inside : ∀ f ∈ g.formulas, f < s.size) :
    g.inFragment s fragment = true ↔
      (fragment.admits.atomsOnly = true → ∀ f ∈ g.formulas, (s.comparison? f).isSome = true) ∧
      ∀ f ∈ g.formulas, ∀ t, s.Occurs t f → fragment.admits.term s t = true := by
  unfold inFragment
  simp only [Bool.and_eq_true, Bool.or_eq_true, Bool.not_eq_true', List.all_eq_true,
    Store.mem_subtermsOfAll_iff inside]
  constructor
  · rintro ⟨comparisons, admitted⟩
    refine ⟨fun atoms => comparisons.resolve_left (by simp [atoms]), ?_⟩
    exact fun f member t occurs => admitted t ⟨f, member, occurs⟩
  · rintro ⟨comparisons, admitted⟩
    refine ⟨?_, fun t ⟨f, member, occurs⟩ => admitted f member t occurs⟩
    cases atoms : fragment.admits.atomsOnly with
    | true => exact .inr (comparisons atoms)
    | false => exact .inl rfl

/-- A goal in a fragment of linear arithmetic is linear: every term that occurs in it has a degree
of at most one, and one of sums, differences, negations and products denotes under all assignments
an affine function of the constants that occur in it. -/
theorem inFragment_linear (linear : fragment ∈ Fragment.linear)
    (inside : ∀ f ∈ g.formulas, f < s.size) (lies : g.inFragment s fragment = true) :
    ∀ f ∈ g.formulas, ∀ t, s.Occurs t f → s.degree t ≤ 1 ∧
      (s.OverRing t → ∃ (offset : ℚ) (coeff : TermId →₀ ℚ),
        (∀ x ∈ coeff.support, s.Occurs x t ∧ ∃ name, s.op x = .var name) ∧
        ∀ I : Assignment, s.num I t = offset + coeff.sum fun x c => c * s.num I x) := by
  intro f member t occurs
  have strict : fragment.admits.nonlinear = false := by
    clear lies
    revert fragment
    decide
  have whole : s.Linear t := fun c below => Admits.linearAt strict
    (((inFragment_iff inside).mp lies).2 f member c (below.trans occurs))
  refine ⟨Store.degreeTo_le_one (Nat.lt_succ_self t) whole, fun built => ?_⟩
  exact Store.mem_affine (Store.reading_mem_affine whole built)

section Case

variable {x two double f : TermId}

/-- The terms of a bound on twice an integer. -/
structure Bounds (s : Store) (x two double f : TermId) : Prop where
  /-- The integer. -/
  constant : s.node x = ⟨.var "x", [], .int⟩
  /-- The factor, which is the bound too. -/
  factor : s.node two = ⟨.int 2, [], .int⟩
  /-- Twice the integer. -/
  product : s.node double = ⟨.mul, [two, x], .int⟩
  /-- The comparison. -/
  formula : s.node f = ⟨.le, [double, two], .bool⟩
  /-- The comparison is in the store. -/
  inside : f < s.size

/-- There is such a bound. -/
theorem exists_bounds : ∃ (s : Store) (x two double f : TermId), Bounds s x two double f := by
  have built : (do
      let x ← Terms.intern ⟨.var "x", [], .int⟩
      let two ← Terms.intern ⟨.int 2, [], .int⟩
      let double ← Terms.intern ⟨.mul, [two, x], .int⟩
      let f ← Terms.intern ⟨.le, [double, two], .bool⟩
      return (x, two, double, f) : Terms (TermId × TermId × TermId × TermId)).Ensures .initial
      fun found s => Bounds s found.1 found.2.1 found.2.2.1 found.2.2.2 := by
    refine Terms.ensures_bind (Terms.intern_getElem? nofun) fun x s₁ _ constant => ?_
    refine Terms.ensures_bind (Terms.intern_getElem? nofun) fun two s₂ g₂ factor => ?_
    have constant := g₂ _ _ constant
    have inside : ∀ a ∈ [two, x], a < s₂.size := by
      simp [(Store.node_of_getElem? constant).1, (Store.node_of_getElem? factor).1]
    refine Terms.ensures_bind (Terms.intern_getElem? inside) fun double s₃ g₃ product => ?_
    have factor := g₃ _ _ factor
    have inside : ∀ a ∈ [double, two], a < s₃.size := by
      simp [(Store.node_of_getElem? product).1, (Store.node_of_getElem? factor).1]
    refine Terms.ensures_bind (Terms.intern_getElem? inside) fun f s₄ g₄ formula => ?_
    refine Terms.ensures_pure ⟨?_, ?_, ?_, (Store.node_of_getElem? formula).2,
      (Store.node_of_getElem? formula).1⟩
    · exact (Store.node_of_getElem? (g₄ _ _ (g₃ _ _ constant))).2
    · exact (Store.node_of_getElem? (g₄ _ _ factor)).2
    · exact (Store.node_of_getElem? (g₄ _ _ product)).2
  exact ⟨_, _, _, _, _, built⟩

/-- The parts of the product. -/
theorem Bounds.cases_product {c : TermId} (terms : Bounds s x two double f)
    (occurs : s.Occurs c double) : c = double ∨ c = two ∨ c = x := by
  refine occurs.of_closed (p := fun u => u = double ∨ u = two ∨ u = x) ?_ (.inl rfl)
  rintro u (rfl | rfl | rfl) a member
  · rw [Store.args, terms.product] at member
    simp only [List.mem_cons, List.not_mem_nil, or_false] at member
    exact .inr member
  · rw [Store.args, terms.factor] at member
    cases member
  · rw [Store.args, terms.constant] at member
    cases member

/-- The parts of the bound. -/
theorem Bounds.cases_formula {c : TermId} (terms : Bounds s x two double f)
    (occurs : s.Occurs c f) : c = f ∨ c = double ∨ c = two ∨ c = x := by
  obtain rfl | ⟨a, member, below⟩ := occurs.cases
  · exact .inl rfl
  rw [Store.args, terms.formula] at member
  simp only [List.mem_cons, List.not_mem_nil, or_false] at member
  have inside : s.Occurs two double := .there (by rw [Store.args, terms.product]; simp) .here
  obtain rfl | rfl := member
  · exact .inr (terms.cases_product below)
  · exact .inr (terms.cases_product (below.trans inside))

/-- The bound lies in linear integer arithmetic. -/
theorem Bounds.inFragment (terms : Bounds s x two double f) (only : g.formulas = [f]) :
    g.inFragment s .qfLia = true := by
  have inside : ∀ k ∈ g.formulas, k < s.size := by simpa [only] using terms.inside
  refine (inFragment_iff inside).mpr ⟨nofun, ?_⟩
  rw [only]
  refine List.forall_mem_singleton.mpr fun c occurs => ?_
  have literal : s.isNumeral two = true := by
    rw [Store.isNumeral, Store.numeral?, Store.op, terms.factor]
    rfl
  have few : [two, x].countP (fun a => !s.isNumeral a) ≤ 1 := by
    rw [List.countP_cons_of_neg (by simp [literal])]
    exact List.countP_le_length
  obtain rfl | rfl | rfl | rfl := terms.cases_formula occurs
  · rw [Admits.term, Store.view, terms.formula]
    rfl
  · rw [Admits.term, Store.view, terms.product]
    exact decide_eq_true few
  · rw [Admits.term, Store.view, terms.factor]
    rfl
  · rw [Admits.term, Store.view, Store.sortOf, terms.constant]
    rfl

end Case

/-- A bound on twice an integer. -/
theorem inFragment_linear_case : ∃ (s : Store) (g : Goal) (two x double f : TermId),
    s.node double = ⟨.mul, [two, x], .int⟩ ∧ g.formulas = [f] ∧ f < s.size ∧
    g.inFragment s .qfLia = true ∧ s.Occurs double f ∧ s.OverRing double ∧ s.degree double ≤ 1 ∧
    ∃ (offset : ℚ) (coeff : TermId →₀ ℚ),
      (∀ c ∈ coeff.support, s.Occurs c double ∧ ∃ name, s.op c = .var name) ∧
      ∀ I : Assignment, s.num I double = offset + coeff.sum fun c q => q * s.num I c := by
  obtain ⟨s, x, two, double, f, terms⟩ := exists_bounds
  let g : Goal :=
    { entries := [{ formula := f }], models := false, proofs := false, cores := false }
  have inside : ∀ k ∈ g.formulas, k < s.size := List.forall_mem_singleton.mpr terms.inside
  have lies : g.inFragment s .qfLia = true := terms.inFragment rfl
  have occurs : s.Occurs double f := by
    refine .there ?_ .here
    rw [Store.args, terms.formula]
    exact List.mem_cons_self
  have built : s.OverRing double := by
    intro c inner
    obtain rfl | rfl | rfl := terms.cases_product inner
    · rw [Store.op, terms.product]
      rfl
    · rw [Store.op, terms.factor]
      rfl
    · rw [Store.op, terms.constant]
      rfl
  have linear :=
    inFragment_linear (by decide) inside lies f (List.mem_singleton_self f) double occurs
  exact ⟨s, g, two, x, double, f, terms.product, rfl, terms.inside, lies, occurs, built, linear.1,
    linear.2 built⟩

end Goal
end Stratagem
