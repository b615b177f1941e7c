import Stratagem.Proofs.Tactic.Elimination

/-!
# Linear equations over two sorts of numbers

A sum or a product may have integers and reals as arguments; it is then a real. An equation between
such terms that is solved for a constant says that the constant has the value of its definition, in
which it does not occur (`EquationSolver.linear?_solves`). The definition has an integer value, as
an integer constant must, if the factors that stand beside the constant are integers; with a real
among them it may have none.
-/
namespace Stratagem

open Store (Extends)

namespace Store

variable {s now after : Store} {I J : Assignment} {t c : TermId}

/-- An application to numbers of either sort: integer if all arguments are, else real. -/
def Mixes (s : Store) (sort : TermSort) : Op → List TermId → Prop
  | .var _, [] => sort.isArith
  | .int _, [] => sort = .int
  | .real _, [] => sort = .real
  | .neg, [a] => sort = s.arithJoin [a]
  | .sub, [a, b] => sort = s.arithJoin [a, b]
  | .add, args | .mul, args => 2 ≤ args.length ∧ sort = s.arithJoin args
  | .power, [a, e] => sort = s.arithJoin [a, e] ∧ ∃ k : ℕ, 0 < k ∧ s.op e = .int k
  | .toReal, [_] => sort = .real
  | _, _ => False

/-- A polynomial over integer and real constants whose sums, differences, products and powers may
have arguments of both sorts. -/
inductive Mixed (s : Store) : TermId → Prop
  | intro {t : TermId} (inside : t < s.size) (mixes : s.Mixes (s.sortOf t) (s.op t) (s.args t))
    (args : ∀ a ∈ s.args t, Mixed s a) : Mixed s t

section Application

variable {sort : TermSort} {op : Op} {args : List TermId}

/-- Such an application is a number. -/
theorem Mixes.isArith (mixes : s.Mixes sort op args) : sort.isArith := by
  revert mixes
  unfold Mixes
  split <;> intro mixes
  case h_1 => exact mixes
  case h_2 | h_3 | h_9 => rw [mixes]; rfl
  case h_4 | h_5 => rw [mixes]; exact isArith_arithJoin s _
  case h_6 | h_7 => rw [mixes.2]; exact isArith_arithJoin s _
  case h_8 => rw [mixes.1]; exact isArith_arithJoin s _
  case h_10 => exact mixes.elim

/-- Such an application stays one when the store grows. -/
theorem Mixes.mono (mixes : s.Mixes sort op args) (grown : s.Extends after)
    (inside : ∀ a ∈ args, a < s.size) : after.Mixes sort op args := by
  have joins : after.arithJoin args = s.arithJoin args := by
    have same : (∀ a ∈ args, after.sortOf a = .int) ↔ ∀ a ∈ args, s.sortOf a = .int :=
      forall₂_congr fun a member => by rw [grown.sortOf_eq (inside a member)]
    rw [← arithJoin_eq_int_iff, ← arithJoin_eq_int_iff] at same
    unfold arithJoin at same ⊢
    split <;> split <;> simp_all
  revert mixes
  unfold Mixes
  split <;> intro mixes
  case h_4 | h_5 | h_6 | h_7 => rw [joins]; exact mixes
  case h_8 a e =>
    rw [joins, grown.op_eq (inside e (by simp))]
    exact mixes
  all_goals exact mixes

/-- The value of such an application is one of its sort: integers stay among integers. -/
theorem Mixes.hasSort (mixes : s.Mixes sort op args)
    (typed : ∀ a ∈ args, (s.value I a).HasSort (s.sortOf a)) :
    (op.denote I sort (args.map (s.value I))).HasSort sort := by
  have arith := mixes.isArith
  have integral : s.arithJoin args = .int → ∀ a ∈ args, s.num I a ∈ Value.integers :=
    fun int a member =>
      Value.num_mem_integers (arithJoin_eq_int_iff.mp int a member ▸ typed a member)
  revert mixes
  unfold Mixes
  split <;> intro mixes
  case h_1 =>
    cases sort <;> simp_all [TermSort.isArith, Op.denote, Assignment.constant, Value.HasSort]
  case h_2 n =>
    subst mixes
    exact ⟨n, rfl⟩
  case h_4 a =>
    refine (Value.hasSort_number arith).mpr fun int => neg_mem ?_
    exact integral (mixes.symm.trans int) a (by simp)
  case h_5 a b =>
    refine (Value.hasSort_number arith).mpr fun int => ?_
    have each := integral (mixes.symm.trans int)
    exact sub_mem (each a (by simp)) (each b (by simp))
  case h_6 =>
    refine (Value.hasSort_number arith).mpr fun int => list_sum_mem fun x member => ?_
    obtain ⟨v, ⟨a, inside, rfl⟩, rfl⟩ := by simpa only [List.mem_map] using member
    exact integral (mixes.2.symm.trans int) a inside
  case h_7 =>
    refine (Value.hasSort_number arith).mpr fun int => list_prod_mem fun x member => ?_
    obtain ⟨v, ⟨a, inside, rfl⟩, rfl⟩ := by simpa only [List.mem_map] using member
    exact integral (mixes.2.symm.trans int) a inside
  case h_8 a e =>
    refine (Value.hasSort_number arith).mpr fun int => pow_mem ?_ _
    exact integral (mixes.1.symm.trans int) a (by simp)
  case h_10 => exact mixes.elim
  -- Every number is a real.
  all_goals
    subst mixes
    trivial

end Application

namespace Mixed

theorem inside (mixed : s.Mixed t) : t < s.size := by
  cases mixed
  assumption

theorem mixes (mixed : s.Mixed t) : s.Mixes (s.sortOf t) (s.op t) (s.args t) := by
  cases mixed
  assumption

theorem of_mem_args (mixed : s.Mixed t) {a : TermId} (member : a ∈ s.args t) : s.Mixed a := by
  cases mixed with
  | intro _ _ args => exact args a member

/-- What occurs in such a term is one. -/
theorem of_occurs (mixed : s.Mixed t) (occurs : s.Occurs c t) : s.Mixed c := by
  induction occurs with
  | here => exact mixed
  | there member _ deeper => exact deeper (mixed.of_mem_args member)

/-- A constant has no arguments. -/
theorem node_of_var {name : String} (mixed : s.Mixed t) (head : s.op t = .var name) :
    s.node t = ⟨.var name, [], s.sortOf t⟩ := by
  have mixes := mixed.mixes
  rw [head] at mixes
  have arguments : s.args t = [] := by
    cases shape : s.args t with
    | nil => rfl
    | cons =>
      rw [shape] at mixes
      exact mixes.elim
  rw [← arguments, ← head]
  rfl

end Mixed

/-- Such a term stays one when the store grows. -/
theorem Mixed.mono (mixed : s.Mixed t) (grown : s.Extends after) : after.Mixed t := by
  induction mixed with
  | intro inside mixes args each =>
    refine .intro (grown.lt_size inside) ?_ ?_
    · rw [grown.sortOf_eq inside, grown.op_eq inside, grown.args_eq inside]
      exact mixes.mono grown fun a member => (args a member).inside
    · rw [grown.args_eq inside]
      exact each

/-- The value of such a term is one of its sort. -/
theorem Mixed.hasSort (mixed : s.Mixed t) : (s.value I t).HasSort (s.sortOf t) := by
  induction mixed with
  | intro inside mixes args typed =>
    rw [value_eq]
    exact mixes.hasSort typed

/-- The value of such a term is its number. -/
theorem Mixed.value_eq_num (mixed : s.Mixed t) : s.value I t = .number (s.num I t) :=
  Value.eq_number mixed.mixes.isArith mixed.hasSort

/-- The value of a term depends on the constants that occur in it. -/
theorem value_congr_occurs (same : ∀ c name, s.Occurs c t → s.op c = .var name →
    I.constant name (s.sortOf c) = J.constant name (s.sortOf c)) : s.value I t = s.value J t := by
  induction t using Nat.strongRecOn with
  | ind t smaller =>
    have arguments : (s.args t).map (s.value I) = (s.args t).map (s.value J) :=
      List.map_congr_left fun a member => smaller a (lt_of_mem_args member)
        fun c name occurs => same c name (.there member occurs)
    rw [value_eq, value_eq, arguments]
    exact Op.denote_congr (fun name head => same t name .here head) _

end Store

namespace EquationSolver

open Monomials

variable {s now after : Store} {I : Assignment} {a b x t : TermId} {y : ℝ} {isInt : Bool}

/-- A number in which a constant does not occur. -/
structure Avoids (x : TermId) (I : Assignment) (s : Store) (t : TermId) (y : ℝ) : Prop where
  /-- It is a polynomial over constants of both sorts. -/
  mixed : s.Mixed t
  /-- The constant does not occur. -/
  absent : ¬s.Occurs x t
  /-- Its value. -/
  value_eq : s.value I t = .number y

theorem Avoids.mono (known : Avoids x I now t y) (grown : now.Extends after) :
    Avoids x I after t y where
  mixed := known.mixed.mono grown
  absent occurs := known.absent (occurs.of_extends grown known.mixed.inside)
  value_eq := (grown.value_eq I known.mixed.inside).trans known.value_eq

/-- A node whose arguments avoid a constant avoids it, unless it is one itself. -/
theorem avoids_of_node {name : String} {op : Op} {sort : TermSort} {args : List TermId}
    {xs : List ℝ} (var : s.op x = .var name) (grown : s.Extends now) (more : now.Extends after)
    (found : t < after.size ∧ after.node t = ⟨op, args, sort⟩)
    (known : List.Forall₂ (Avoids x I now) args xs) (mixes : now.Mixes sort op args)
    (interpreted : ∀ name, op ≠ .var name)
    (value : op.denote I sort (xs.map Value.number) = .number y) : Avoids x I after t y := by
  obtain ⟨inside, node⟩ := found
  have each : ∀ a ∈ args, now.Mixed a ∧ ¬now.Occurs x a := fun a member => by
    obtain ⟨_, _, here⟩ := exists_of_forall₂ known member
    exact ⟨here.mixed, here.absent⟩
  have head : after.op t = op := by rw [Store.op, node]
  have arguments : after.args t = args := by rw [Store.args, node]
  have same : after.sortOf t = sort := by rw [Store.sortOf, node]
  refine ⟨.intro inside ?_ ?_, fun occurs => ?_, ?_⟩
  · rw [head, arguments, same]
    exact mixes.mono more fun a member => (each a member).1.inside
  · rw [arguments]
    exact fun a member => (each a member).1.mono more
  · rcases occurs.cases with rfl | ⟨a, member, below⟩
    · have there := (grown.trans more).op_eq (Store.lt_size_of_var var)
      exact interpreted name (head.symm.trans (there.trans var))
    · rw [arguments] at member
      exact (each a member).2 (below.of_extends more (each a member).1.inside)
  · have values : args.map (after.value I) = xs.map Value.number := by
      clear each node arguments mixes value
      induction known with
      | nil => rfl
      | cons first _ rest =>
        rw [List.map_cons, List.map_cons, rest, more.value_eq I first.mixed.inside, first.value_eq]
    rw [Store.value_eq, head, arguments, same, values, value]

/-- An application to numbers that avoid a constant avoids it. -/
theorem mkApp_avoids {name : String} (op : Op) {args : List TermId} {xs : List ℝ}
    (var : s.op x = .var name) (grown : s.Extends now)
    (known : List.Forall₂ (Avoids x I now) args xs)
    (mixes : now.Mixes (now.inferSort op args) op args) (interpreted : ∀ name, op ≠ .var name)
    (value : op.denote I (now.inferSort op args) (xs.map Value.number) = .number y) :
    (Terms.mkApp op args).Ensures now fun t after => Avoids x I after t y := by
  have inside : ∀ c ∈ args, c < now.size := fun c member => by
    obtain ⟨_, _, here⟩ := exists_of_forall₂ known member
    exact here.mixed.inside
  exact (Terms.mkApp_node inside).imp fun t after more found =>
    avoids_of_node var grown more found known mixes interpreted value

/-- Literals, sums and products of numbers that avoid a constant avoid it. -/
theorem judges_avoids {name : String} (var : s.op x = .var name) (I : Assignment) (isInt : Bool) :
    Judges s isInt (Avoids x I) where
  mono grown known := known.mono grown
  numeral {now r} grown _ := by
    unfold Terms.mkNumeral
    split
    · next whole =>
      rw [Bool.and_eq_true] at whole
      have exact : ((r.num : ℤ) : ℝ) = r := by exact_mod_cast Terms.num_of_isIntegral whole.2
      refine (Terms.intern_node (by simp)).imp fun t after more found => ?_
      exact avoids_of_node var grown more found .nil rfl (by simp) (congrArg Value.number exact)
    · refine (Terms.intern_node (by simp)).imp fun t after more found => ?_
      exact avoids_of_node var grown more found .nil rfl (by simp) rfl
  add {now args xs} grown some known := by
    rcases known with _ | ⟨first, _ | ⟨second, rest⟩⟩
    · exact absurd rfl some
    · rw [List.sum_singleton]
      exact first
    · exact mkApp_avoids .add var grown (.cons first (.cons second rest)) ⟨by simp, rfl⟩
        (by simp) (by simp [Op.denote, Op.interpret, Function.comp_def])
  mul {now args xs} grown some known := by
    rcases known with _ | ⟨first, _ | ⟨second, rest⟩⟩
    · exact absurd rfl some
    · rw [List.prod_singleton]
      exact first
    · exact mkApp_avoids .mul var grown (.cons first (.cons second rest)) ⟨by simp, rfl⟩
        (by simp) (by simp [Op.denote, Op.interpret, Function.comp_def])

/-! ### The linear form of a term of both sorts -/

/-- A power product of numbers, not of none. -/
def MixedProduct (s : Store) (product : PowerProduct) : Prop :=
  product ≠ [] ∧ ∀ f ∈ product, s.Mixed f

theorem mixedProduct_monomial (mixed : s.Mixed t) : MixedProduct s (s.monomial t).product := by
  have down : ∀ a, s.Mixed a → ∀ b ∈ s.args a, s.Mixed b := fun _ known _ member =>
    known.of_mem_args member
  refine ⟨?_, Store.monomial_all down mixed⟩
  have mixes := mixed.mixes
  unfold Store.monomial
  split
  · next view =>
    obtain ⟨head, arguments⟩ := Store.view_eq_iff.mp view
    rw [head, arguments] at mixes
    exact absurd mixes.1 (by simp)
  · next first rest view =>
    obtain ⟨head, arguments⟩ := Store.view_eq_iff.mp view
    rw [head, arguments] at mixes
    split
    · rintro rfl
      exact absurd mixes.1 (by simp)
    · exact List.cons_ne_nil first rest
  · exact List.cons_ne_nil t []

theorem mixedProduct_linearForm (mixed : s.Mixed t) :
    ∀ e ∈ (s.linearForm t).monomials.toList, MixedProduct s e.product := by
  have down : ∀ a, s.Mixed a → ∀ b ∈ s.args a, s.Mixed b := fun _ known _ member =>
    known.of_mem_args member
  have all := List.foldlRecOn
    (motive := fun form : LinearForm => ∀ e ∈ form.monomials.toList, MixedProduct s e.product)
    (s.summands t) (LinearForm.addTerm s) (b := ⟨0, {}⟩) (by simp [toList])
    fun form known a member => by
      unfold LinearForm.addTerm
      split
      · exact known
      · exact forall_product_add known _
          (mixedProduct_monomial (Store.flattenTo_all down .add (t + 1) mixed a member))
  exact fun e member => all e (mem_retainNonzero member).1

/-- The power products of the difference of two terms. -/
theorem mixedProduct_difference (left : s.Mixed a) (right : s.Mixed b) :
    ∀ e ∈ (difference s a b).monomials.toList, MixedProduct s e.product := by
  have all := List.foldlRecOn
    (motive := fun m : Monomials => ∀ e ∈ m.toList, MixedProduct s e.product)
    (s.linearForm b).monomials.toList (fun m e => m.add (-e.coeff) e.product)
    (mixedProduct_linearForm left)
    fun m known e member => forall_product_add known _ (mixedProduct_linearForm right e member)
  exact fun e member => all e (mem_retainNonzero member).1

/-- The value of a monomial of integers is an integer. -/
theorem eval_mem_integers {m : Monomial} (whole : Rational.isIntegral m.coeff)
    (each : ∀ f ∈ m.product, s.Mixed f ∧ s.sortOf f = .int) :
    m.eval (s.num I) ∈ Value.integers := by
  obtain ⟨n, integral⟩ := Rational.isIntegral_iff.mp whole
  refine mul_mem (Value.mem_integers.mpr ⟨n, ?_⟩) (list_prod_mem fun y member => ?_)
  · rw [integral, Rat.cast_intCast]
  · obtain ⟨f, inside, rfl⟩ := List.mem_map.mp member
    obtain ⟨mixed, int⟩ := each f inside
    exact Value.num_mem_integers (int ▸ mixed.hasSort)

/-- An equation of which one monomial is a multiple of a constant says what value the constant
has. -/
theorem value_eq_iff_num_eq (left : s.Mixed a) (right : s.Mixed b) {position : ℕ} {leading : ℚ}
    (nonzero : leading ≠ 0)
    (there : (difference s a b).monomials.toList[position]? = some ⟨leading, [x]⟩) :
    s.value I a = s.value I b ↔
      s.num I x = (-(difference s a b).constant -
        sumOf (s.num I) ((difference s a b).monomials.toList.eraseIdx position)) / leading := by
  rw [left.value_eq_num, right.value_eq_num, Value.number.injEq, ← sub_eq_zero, ← eval_difference,
    LinearForm.eval, eval_split there, Monomial.eval, eq_div_iff (by exact_mod_cast nonzero)]
  simp only [List.map_singleton, List.prod_singleton]
  constructor <;> intro equation <;> linarith

/-- A number that avoids a constant keeps its value whatever value the constant has. -/
theorem Avoids.value_assign {name : String} (known : Avoids x I s t y)
    (node : s.node x = ⟨.var name, [], s.sortOf x⟩) (v : Value) :
    s.value (I.assign name (s.sortOf x) v) t = s.value I t := by
  refine Store.value_congr_occurs fun c other occurs var => ?_
  have mixed := known.mixed.of_occurs occurs
  refine Assignment.constant_assign_of_ne ?_ (.inr mixed.mixes.isArith)
  rintro ⟨rfl, same⟩
  have inside : x < s.size := Store.lt_size_of_var (congrArg Node.op node)
  have nodes : s.node c = s.node x := by rw [mixed.node_of_var var, node, same]
  exact known.absent (Store.eq_of_node_eq mixed.inside inside nodes ▸ occurs)

/-- A sum of integers over a unit is an integer. -/
theorem solution_mem_integers {constant leading : ℚ} {others : List Monomial}
    (unit : leading = 1 ∨ leading = -1) (whole : Rational.isIntegral constant)
    (each : ∀ m ∈ others, Rational.isIntegral m.coeff ∧
      ∀ f ∈ m.product, s.Mixed f ∧ s.sortOf f = .int) :
    (-constant - sumOf (s.num I) others) / leading ∈ Value.integers := by
  have sum : sumOf (s.num I) others ∈ Value.integers := by
    refine list_sum_mem fun y member => ?_
    obtain ⟨m, inside, rfl⟩ := List.mem_map.mp member
    exact eval_mem_integers (each m inside).1 (each m inside).2
  have free : (constant : ℝ) ∈ Value.integers := by
    obtain ⟨n, integral⟩ := Rational.isIntegral_iff.mp whole
    exact Value.mem_integers.mpr ⟨n, by rw [integral, Rat.cast_intCast]⟩
  have numerator := sub_mem (neg_mem free) sum
  rcases unit with rfl | rfl
  · rwa [Rat.cast_one, div_one]
  · rw [Rat.cast_neg, Rat.cast_one, div_neg, div_one]
    exact neg_mem numerator

/-- **Solved linear equations.** A linear equation between terms that may mix integers and reals is
solved for a constant that is accepted, by a term of the same kind in which it does not occur; under
every assignment the equation holds if and only if the constant has the value of its definition. If
the constant is a real, or if the factors of all other monomials of the equation are integers, the
definition has a value of the sort of the constant, and the equation holds once the constant has
that value. -/
theorem linear?_solves {allowed : Store → TermId → Bool} (left : s.Mixed a) (right : s.Mixed b) :
    (linear? allowed a b).Ensures s fun found after => ∀ x body, found = some (x, body) →
      ∃ name, s.node x = ⟨.var name, [], s.sortOf x⟩ ∧ allowed s x = true ∧
        after.Mixed body ∧ ¬after.Occurs x body ∧
        (∀ I, s.value I a = s.value I b ↔ after.value I x = after.value I body) ∧
        ((s.isInt x → ∀ m ∈ (difference s a b).monomials.toList, m.product ≠ [x] →
            ∀ f ∈ m.product, s.isInt f) →
          ∀ I, (after.value I body).HasSort (s.sortOf x) ∧
            s.value (I.assign name (s.sortOf x) (after.value I body)) a =
              s.value (I.assign name (s.sortOf x) (after.value I body)) b) := by
  unfold linear?
  apply Terms.ensures_read_bind
  have products := mixedProduct_difference left right
  have apart := difference_apart (s := s) a b
  dsimp only
  split
  · exact Terms.ensures_pure (by simp)
  · next position chosen =>
    split
    · next leading x there =>
      obtain ⟨short, holds, _⟩ := List.findIdx?_eq_some_iff_getElem.mp chosen
      rw [(List.getElem?_eq_some_iff.mp there).2] at holds
      obtain ⟨var, accepted, unit, others⟩ := solvable_spec apart there holds
      have member := List.mem_of_getElem? there
      have mixed : s.Mixed x := (products _ member).2 x (List.mem_singleton_self x)
      obtain ⟨name, head⟩ : ∃ name, s.op x = .var name := by
        unfold Store.isVar Store.varName? at var
        split at var
        · next name head => exact ⟨name, head⟩
        · cases var
      have reads (I : Assignment) := value_eq_iff_num_eq (I := I) left right
        (Monomials.mem_retainNonzero member).2 there
      have judged (I : Assignment) :
          ∀ m ∈ (difference s a b).monomials.toList.eraseIdx position,
            Judged (Avoids x I) (s.num I) (s.isInt x) s m := by
        intro m among
        obtain ⟨-, whole, absent⟩ := others m among
        obtain ⟨some, known⟩ := products m (List.mem_of_mem_eraseIdx among)
        refine ⟨whole, some, fun f factor => ⟨known f factor, fun occurs => ?_,
          (known f factor).value_eq_num⟩⟩
        exact Bool.false_ne_true ((absent f factor).symm.trans occurs.occurs)
      have solved (I : Assignment) := solution_ensures (judges_avoids head I (s.isInt x)) (judged I)
        (fun whole => (unit whole).2) fun whole => (unit whole).1
      apply Terms.ensures_bind (Terms.ensures_forall solved)
      intro body after grown built
      apply Terms.ensures_pure
      rintro _ _ ⟨⟩
      have same (I : Assignment) : after.value I x = s.value I x := grown.value_eq I mixed.inside
      have agree (I : Assignment) :
          s.value I a = s.value I b ↔ after.value I x = after.value I body := by
        rw [reads I, same I, mixed.value_eq_num, (built I).value_eq, Value.number.injEq]
      have node := mixed.node_of_var head
      have sort : after.sortOf x = s.sortOf x := grown.sortOf_eq mixed.inside
      refine ⟨name, node, accepted, (built default).mixed, (built default).absent, agree,
        fun integers I => ?_⟩
      have typed : (after.value I body).HasSort (s.sortOf x) := by
        rw [(built I).value_eq]
        refine (Value.hasSort_number mixed.mixes.isArith).mpr fun int => ?_
        have isInt : s.isInt x = true := by rw [Store.isInt, int]; rfl
        refine solution_mem_integers (unit isInt).1 (unit isInt).2 fun m among => ?_
        obtain ⟨differ, whole, -⟩ := others m among
        have inside := List.mem_of_mem_eraseIdx among
        refine ⟨whole isInt, fun f factor => ⟨(products m inside).2 f factor, ?_⟩⟩
        exact eq_of_beq (integers isInt m inside differ f factor)
      have chosen : after.node x = ⟨.var name, [], after.sortOf x⟩ := by
        rw [grown.node_eq mixed.inside, sort, node]
      have kept := (built I).value_assign chosen (after.value I body)
      refine ⟨typed, (agree _).mpr ?_⟩
      rw [← sort] at typed ⊢
      rw [kept, Store.value_eq, Store.op, Store.args, chosen]
      exact Assignment.constant_assign typed (.inr (sort ▸ mixed.mixes.isArith))
    · exact Terms.ensures_pure (by simp)

/-! ### An integer constant and a real one -/

/-- The sum of an integer constant and a real one, and zero. -/
def sumOfSorts : Terms (TermId × TermId) := do
  let x ← Terms.mkVar "x" .int
  let r ← Terms.mkVar "r" .real
  return (← Terms.mkAdd [x, r], ← Terms.mkReal 0)

/-- The nodes of the sum and zero. -/
theorem sumOfSorts_getElem? : sumOfSorts.Ensures .initial fun terms s => ∃ x r,
    s.nodes[x]? = some ⟨.var "x", [], .int⟩ ∧ s.nodes[r]? = some ⟨.var "r", [], .real⟩ ∧
    s.nodes[terms.1]? = some ⟨.add, [x, r], .real⟩ ∧
    s.nodes[terms.2]? = some ⟨.real 0, [], .real⟩ := by
  have constant (name : String) (sort : TermSort) (s : Store) :
      (Terms.mkVar name sort).Ensures s fun t after =>
        after.nodes[t]? = some ⟨.var name, [], sort⟩ :=
    Terms.ensures_bind_of_all fun _ _ _ => Terms.intern_getElem? (by simp)
  refine Terms.ensures_bind (constant "x" .int _) fun x s _ first => ?_
  refine Terms.ensures_bind (constant "r" .real s) fun r s grown second => ?_
  have first := grown _ _ first
  have firstNode := Store.node_of_getElem? first
  have secondNode := Store.node_of_getElem? second
  have inside : ∀ a ∈ [x, r], a < s.size := by simpa using ⟨firstNode.1, secondNode.1⟩
  have sort : s.inferSort .add [x, r] = .real := by
    simp [Store.inferSort, Store.arithJoin, Store.isInt, Store.sortOf, firstNode.2, secondNode.2]
  have sum : (Terms.mkAdd [x, r]).Ensures s fun t after =>
      after.nodes[t]? = some ⟨.add, [x, r], .real⟩ := by
    have built : (Terms.mkApp .add [x, r]).Ensures s _ := Terms.mkApp_node inside
    refine built.imp fun t after _ found => ?_
    rw [← sort, ← found.2]
    exact Store.getElem?_eq_node found.1
  refine Terms.ensures_bind sum fun t s more whole => ?_
  refine Terms.ensures_bind (Terms.intern_getElem? (by simp)) fun z s further zero => ?_
  exact Terms.ensures_pure ⟨x, r, further _ _ (more _ _ first), further _ _ (more _ _ second),
    further _ _ whole, zero⟩

theorem flattenTo_of_ne {head : Op} {depth : ℕ} (other : s.op t ≠ head) :
    s.flattenTo head depth t = [t] := by
  cases depth with
  | zero => rfl
  | succ depth => rw [Store.flattenTo, if_neg other]

section Sum

variable {r z : TermId}

/-- The difference of the sum and zero. -/
theorem difference_sumOfSorts (first : s.node x = ⟨.var "x", [], .int⟩)
    (second : s.node r = ⟨.var "r", [], .real⟩) (sum : s.node t = ⟨.add, [x, r], .real⟩)
    (zero : s.node z = ⟨.real 0, [], .real⟩) :
    (difference s t z).constant = 0 ∧
      (difference s t z).monomials.toList = [⟨1, [x]⟩, ⟨1, [r]⟩] := by
  have other : x ≠ r := by
    rintro rfl
    exact absurd (first.symm.trans second) (by simp)
  have leaf {c : TermId} {name : String} {sort : TermSort} (node : s.node c = ⟨.var name, [], sort⟩)
      (form : LinearForm) : form.addTerm s c = ⟨form.constant, form.monomials.add 1 [c]⟩ := by
    simp [LinearForm.addTerm, Store.numeral?, Store.monomial, Store.view, Store.op, node]
  have parts : s.summands t = [x, r] := by
    rw [Store.summands, Store.flattenTo, if_pos (by rw [Store.op, sum]), Store.args, sum]
    simp [flattenTo_of_ne, Store.op, first, second]
  have none : s.summands z = [z] := flattenTo_of_ne (by simp [Store.op, zero])
  have left : (s.linearForm t).constant = 0 ∧
      (s.linearForm t).monomials.toList = [⟨1, [x]⟩, ⟨1, [r]⟩] := by
    simp [Store.linearForm, parts, leaf first, leaf second, toList_retainNonzero,
      toList_add_of_unknown, coeff?_add, other.symm]
  have right : (s.linearForm z).constant = 0 ∧ (s.linearForm z).monomials.toList = [] := by
    simp [Store.linearForm, none, LinearForm.addTerm, Store.numeral?, Store.op, zero,
      toList_retainNonzero]
  simp [difference, left, right, toList_retainNonzero]

/-- The sum is solved for the integer constant. -/
theorem linear?_sumOfSorts (first : s.node x = ⟨.var "x", [], .int⟩)
    (second : s.node r = ⟨.var "r", [], .real⟩) (sum : s.node t = ⟨.add, [x, r], .real⟩)
    (zero : s.node z = ⟨.real 0, [], .real⟩) :
    ∃ body, ((linear? (fun _ _ => true) t z).run s).1 = some (x, body) := by
  have other : x ≠ r := by
    rintro rfl
    exact absurd (first.symm.trans second) (by simp)
  have absent : s.occurs x r = false :=
    Store.occurs_of_args_nil (by rw [Store.args, second]) other
  obtain ⟨constant, monomials⟩ := difference_sumOfSorts first second sum zero
  have chosen : solvable s (fun _ => true) (difference s t z) ⟨1, [x]⟩ = true := by
    simp [solvable, constant, monomials, Store.isInt, Store.isVar, Store.varName?, Store.op,
      Store.sortOf, first, absent, Rational.isIntegral]
  unfold linear?
  simp only [Terms.run_bind, Terms.run_read, monomials]
  simp only [List.findIdx?_cons, chosen, ↓reduceIte]
  exact ⟨_, rfl⟩

/-- The value of the sum. -/
theorem value_sumOfSorts (first : s.node x = ⟨.var "x", [], .int⟩)
    (second : s.node r = ⟨.var "r", [], .real⟩) (sum : s.node t = ⟨.add, [x, r], .real⟩)
    (I : Assignment) : s.value I t = .number (I.integer "x" + I.real "r") := by
  rw [Store.value_eq, Store.op, Store.args, sum]
  simp [Op.denote, Op.interpret, Store.value_eq, Store.op, Store.args, Store.sortOf, first, second,
    Assignment.constant]

/-- The sum and zero are terms over both sorts. -/
theorem mixed_sumOfSorts (first : s.nodes[x]? = some ⟨.var "x", [], .int⟩)
    (second : s.nodes[r]? = some ⟨.var "r", [], .real⟩)
    (sum : s.nodes[t]? = some ⟨.add, [x, r], .real⟩)
    (zero : s.nodes[z]? = some ⟨.real 0, [], .real⟩) : s.Mixed t ∧ s.Mixed z := by
  have leaf {c : TermId} {op : Op} {sort : TermSort} (found : s.nodes[c]? = some ⟨op, [], sort⟩)
      (mixes : s.Mixes sort op []) : s.Mixed c := by
    obtain ⟨inside, node⟩ := Store.node_of_getElem? found
    refine .intro inside ?_ ?_
    · rwa [Store.op, Store.args, Store.sortOf, node]
    · rw [Store.args, node]
      simp
  refine ⟨?_, leaf zero rfl⟩
  obtain ⟨inside, node⟩ := Store.node_of_getElem? sum
  refine .intro inside ?_ ?_
  · rw [Store.op, Store.args, Store.sortOf, node]
    refine ⟨Nat.le_refl 2, ?_⟩
    simp [Store.arithJoin, Store.isInt, Store.sortOf, (Store.node_of_getElem? first).2,
      (Store.node_of_getElem? second).2]
  · rw [Store.args, node]
    simpa using ⟨leaf first rfl, leaf second rfl⟩

/-- A term that the sum is solved by has a value that is no integer. -/
theorem fraction_sumOfSorts {body : TermId} (grown : s.Extends after) (inside : x < s.size)
    (first : s.node x = ⟨.var "x", [], .int⟩) (second : s.node r = ⟨.var "r", [], .real⟩)
    (sum : s.node t = ⟨.add, [x, r], .real⟩) (zero : s.node z = ⟨.real 0, [], .real⟩)
    (mixed : after.Mixed body) (absent : ¬after.Occurs x body)
    (agree : ∀ I, s.value I t = s.value I z ↔ after.value I x = after.value I body) :
    ¬(after.value ⟨fun _ => False, fun _ => 0, fun _ => 1 / 2⟩ body).HasSort .int := by
  intro typed
  let I : Assignment := ⟨fun _ => False, fun _ => 0, fun _ => 1 / 2⟩
  -- The integer takes the value of its definition, which does not change with it.
  let J := I.assign "x" .int (after.value I body)
  have there : after.node x = ⟨.var "x", [], .int⟩ := by rw [grown.node_eq inside, first]
  have sort : after.sortOf x = .int := by rw [Store.sortOf, there]
  have avoids : Avoids x I after body (after.num I body) := ⟨mixed, absent, mixed.value_eq_num⟩
  have kept : after.value J body = after.value I body := by
    have same := avoids.value_assign (by rw [there, sort]) (after.value I body)
    rwa [sort] at same
  have equation : s.value J t = s.value J z := by
    refine (agree J).mpr ?_
    rw [kept, Store.value_eq, Store.op, Store.args, there, sort]
    exact Assignment.constant_assign typed (.inr rfl)
  have none : s.value J z = .number 0 := by
    rw [Store.value_eq, Store.op, Store.args, zero]
    simp [Op.denote, Op.interpret]
  rw [value_sumOfSorts first second sum, none, Value.number.injEq] at equation
  have half : J.real "r" = 1 / 2 := rfl
  rw [half] at equation
  have odd : 2 * J.integer "x" + 1 = 0 := by
    have twice : (2 * J.integer "x" + 1 : ℝ) = 0 := by linarith
    exact_mod_cast twice
  omega

end Sum

/-- The sum of an integer constant and a real one is solved for the integer, although its definition
has a value that is no integer. -/
theorem linear?_solves_fraction :
    let s := (sumOfSorts.run .initial).2
    let a := (sumOfSorts.run .initial).1.1
    let b := (sumOfSorts.run .initial).1.2
    s.Mixed a ∧ s.Mixed b ∧ ∃ x body after,
      (linear? (fun _ _ => true) a b).run s = (some (x, body), after) ∧ s.isInt x = true ∧
      ¬after.Occurs x body ∧
      (∀ I, s.value I a = s.value I b ↔ after.value I x = after.value I body) ∧
      ∃ I, ¬(after.value I body).HasSort .int := by
  obtain ⟨x, r, first, second, sum, zero⟩ := sumOfSorts_getElem?
  dsimp only
  generalize (sumOfSorts.run .initial).2 = s at *
  generalize (sumOfSorts.run .initial).1 = terms at *
  obtain ⟨a, b⟩ := terms
  dsimp only at *
  obtain ⟨left, right⟩ := mixed_sumOfSorts first second sum zero
  obtain ⟨inside, first⟩ := Store.node_of_getElem? first
  have second := (Store.node_of_getElem? second).2
  have sum := (Store.node_of_getElem? sum).2
  have zero := (Store.node_of_getElem? zero).2
  obtain ⟨body, found⟩ := linear?_sumOfSorts first second sum zero
  have solves : (linear? (fun _ _ => true) a b).Ensures s _ := linear?_solves left right
  have grown := (linear? (fun _ _ => true) a b).grows s
  unfold Terms.Ensures at solves
  generalize run : (linear? (fun _ _ => true) a b).run s = out at *
  obtain ⟨answer, after⟩ := out
  obtain ⟨-, -, -, mixed, absent, agree, -⟩ := solves x body found
  have int : s.isInt x = true := by simp [Store.isInt, Store.sortOf, first]
  have fraction := fraction_sumOfSorts grown inside first second sum zero mixed absent agree
  exact ⟨left, right, x, body, after, Prod.ext found rfl, int, absent, agree, _, fraction⟩

end EquationSolver
end Stratagem
