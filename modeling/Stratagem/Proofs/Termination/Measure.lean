import Mathlib.Algebra.Order.BigOperators.Group.List
import Mathlib.Algebra.Order.BigOperators.Ring.List
import Mathlib.Data.List.MinMax
import Mathlib.Data.Nat.Log
import Stratagem.Proofs.Rewriting.Rule
import Stratagem.Rewriting.Simplifier

/-!
# Measures of terms

Every rule that has its result visited again makes a term smaller, in one of two measures. The rank
of a term counts the comparisons of numbers that are nested in each other by case distinctions. The
weight of a formula or of a number bounds what the rules can make of it without looking into the
sides of comparisons. Numerals weigh one, so that multiplying out does not make a product heavier;
a sum weighs more than its summands, a product twice the product of its factors. What powers weigh
depends on whether they are multiplied out or collected.
-/
namespace Stratagem

open Store (Extends)

variable {config : SimplifierConfig} {s after : Store} {t : TermId} {op : Op} {args : List TermId}
  {ms ns : List ℕ} {δ m n k : ℕ}

/-- What the measures of an application take from the arguments beside their measures. -/
structure Gauge where
  /-- Whether the first argument is a number. -/
  arith : Bool
  /-- The value of the second argument, if that is a literal. -/
  exponent : ℕ

/-- The weight of a power: more than that of the product that is multiplied out, and not more than
that of a product whose factors are collected. -/
def SimplifierConfig.powerWeight (config : SimplifierConfig) (base exponent : ℕ) : ℕ :=
  if config.mulToPower then max base 2 ^ (1 + Nat.clog 2 (max exponent 2))
  else 2 * (base + 1) ^ exponent

namespace Op

/-- The weight of an application, from the weights of its arguments. -/
def weigh (config : SimplifierConfig) (gauge : Gauge) (op : Op) (ns : List ℕ) : ℕ :=
  match op with
  | bool _ | int _ | real _ => 1
  | not => ns.sum + 2
  | and => (ns.map (· + 3)).sum + 5
  | or => (ns.map (· + 1)).sum + 2
  | implies => ns.sum + 7
  | xor => ns.sum + 25
  | ite => 2 * ns.sum + 20
  | eq => (if gauge.arith then 0 else ns.sum) + 20
  | distinct => (if gauge.arith then 0 else ns.sum) + 30
  | lt | gt => 5
  | neg => 2 * ns.sum + 2
  | add => (ns.map (· + 1)).sum + 2
  | sub => 2 * ns.sum + 5
  | mul => 2 * ns.prod
  | power => config.powerWeight (ns.headD 1) gauge.exponent
  | toReal => max (ns.sum ^ 2) 2
  | _ => 2

/-- By how much the rank of an application is more than that of its arguments. -/
def lifts (gauge : Gauge) : Op → ℕ
  | le | lt | ge | gt => 1
  | eq | distinct => if gauge.arith then 1 else 0
  | _ => 0

/-- Whether an operator has arguments in formulas and polynomials. -/
def isCompound : Op → Bool
  | not | and | or | implies | xor | ite | eq | distinct | le | lt | ge | gt | neg | add | sub | mul
  | power | toReal => true
  | _ => false

/-- Whether an operator is a truth value or a rational literal. -/
def isRational : Op → Bool
  | bool _ | int _ | real _ => true
  | _ => false

end Op

namespace Store

/-- What the measures of an application take from its arguments. -/
def gauge (s : Store) (args : List TermId) : Gauge where
  arith := (s.headSort args).isArith
  exponent := match args with
    | [_, e] => ((s.numeral? e).getD 1).num.toNat
    | _ => 1

/-- The weight of a term. -/
def weight (config : SimplifierConfig) (s : Store) (t : TermId) : ℕ :=
  (s.op t).weigh config (s.gauge (s.args t)) ((s.args t).attach.map fun a => s.weight config a.1)
termination_by t
decreasing_by exact lt_of_mem_args a.2

/-- The rank of a term. -/
def rank (s : Store) (t : TermId) : ℕ :=
  (s.op t).lifts (s.gauge (s.args t)) + ((s.args t).attach.map fun a => s.rank a.1).foldr max 0
termination_by t
decreasing_by exact lt_of_mem_args a.2

/-- The weight of a term is that of its head on the weights of its arguments. -/
theorem weight_eq (config : SimplifierConfig) (s : Store) (t : TermId) :
    s.weight config t =
      (s.op t).weigh config (s.gauge (s.args t)) ((s.args t).map (s.weight config)) := by
  rw [weight, List.attach_map_val (f := s.weight config)]

/-- The rank of a term, from those of its arguments. -/
theorem rank_eq (s : Store) (t : TermId) :
    s.rank t = (s.op t).lifts (s.gauge (s.args t)) + ((s.args t).map s.rank).foldr max 0 := by
  rw [rank, List.attach_map_val (f := s.rank)]

/-- The measures take the same from arguments when the store has grown. -/
theorem Extends.gauge_eq (grown : s.Extends after) (inside : ∀ a ∈ args, a < s.size) :
    after.gauge args = s.gauge args := by
  have sort : after.headSort args = s.headSort args := by
    cases args with
    | nil => rfl
    | cons a => exact grown.sortOf_eq (inside a (List.mem_cons_self ..))
  unfold gauge
  rw [sort]
  split
  · next e => rw [numeral?, numeral?, grown.op_eq (inside e (by simp))]
  · rfl

/-- A term keeps its weight when the store grows. -/
theorem Extends.weight_eq (config : SimplifierConfig) (grown : s.Extends after)
    (inside : t < s.size) :
    after.weight config t = s.weight config t := by
  induction t using Nat.strongRecOn with
  | ind t smaller =>
    have arguments : ∀ a ∈ s.args t, a < s.size := fun a member =>
      (lt_of_mem_args member).trans inside
    rw [Store.weight_eq, Store.weight_eq, grown.op_eq inside, grown.args_eq inside,
      grown.gauge_eq arguments]
    congr 1
    exact List.map_congr_left fun a member =>
      smaller a (lt_of_mem_args member) (arguments a member)

/-- A term keeps its rank when the store grows. -/
theorem Extends.rank_eq (grown : s.Extends after) (inside : t < s.size) :
    after.rank t = s.rank t := by
  induction t using Nat.strongRecOn with
  | ind t smaller =>
    have arguments : ∀ a ∈ s.args t, a < s.size := fun a member =>
      (lt_of_mem_args member).trans inside
    rw [Store.rank_eq, Store.rank_eq, grown.op_eq inside, grown.args_eq inside,
      grown.gauge_eq arguments]
    congr 2
    exact List.map_congr_left fun a member =>
      smaller a (lt_of_mem_args member) (arguments a member)

/-- A rank is at most a bound if those of the arguments are, up to what the head adds. -/
theorem rank_le : s.rank t ≤ (s.op t).lifts (s.gauge (s.args t)) + δ ↔
    ∀ a ∈ s.args t, s.rank a ≤ δ := by
  rw [rank_eq, Nat.add_le_add_iff_left]
  constructor
  · intro bound a member
    exact (List.le_max_of_le (List.mem_map_of_mem member) le_rfl).trans bound
  · intro each
    exact List.max_le_of_forall_le _ _ (List.forall_mem_map.mpr each)

end Store

section Weights

/-- A power weighs at least two. -/
theorem two_le_powerWeight (config : SimplifierConfig) (base exponent : ℕ) :
    2 ≤ config.powerWeight base exponent := by
  unfold SimplifierConfig.powerWeight
  split
  · calc 2 ≤ max base 2 := le_max_right ..
      _ ≤ max base 2 ^ (1 + Nat.clog 2 (max exponent 2)) :=
        Nat.le_self_pow (by omega) _
  · exact Nat.le_mul_of_pos_right 2 (Nat.pow_pos (Nat.succ_pos base))

/-- A power with a heavier base weighs more. -/
theorem powerWeight_mono (enough : m ≤ n) (exponent : ℕ) :
    config.powerWeight m exponent ≤ config.powerWeight n exponent := by
  unfold SimplifierConfig.powerWeight
  split
  · gcongr
  · gcongr

/-- Products of weights are not zero. -/
theorem one_le_prod (positive : ∀ n ∈ ns, 1 ≤ n) : 1 ≤ ns.prod :=
  List.one_le_prod_of_one_le positive

namespace Op

/-- An application weighs more if its arguments do. -/
theorem weigh_mono (gauge : Gauge) (op : Op) (more : List.Forall₂ (· ≤ ·) ms ns) :
    op.weigh config gauge ms ≤ op.weigh config gauge ns := by
  have sum : ms.sum ≤ ns.sum := List.Forall₂.sum_le_sum more
  have prod : ms.prod ≤ ns.prod := List.Forall₂.prod_le_prod' more
  have raised (k : ℕ) : (ms.map (· + k)).sum ≤ (ns.map (· + k)).sum :=
    List.Forall₂.sum_le_sum (List.forall₂_map_left_iff.mpr (List.forall₂_map_right_iff.mpr
      (more.imp fun m n less => Nat.add_le_add_right less k)))
  have head : ms.headD 1 ≤ ns.headD 1 := by
    cases more with
    | nil => rfl
    | cons first => exact first
  cases op with
  | and => exact Nat.add_le_add_right (raised 3) 5
  | or => exact Nat.add_le_add_right (raised 1) 2
  | add => exact Nat.add_le_add_right (raised 1) 2
  | not | implies | xor | ite | neg | sub | mul =>
    simp only [weigh]
    omega
  | eq | distinct =>
    simp only [weigh]
    split <;> omega
  | power => exact powerWeight_mono head _
  | toReal =>
    simp only [weigh]
    gcongr
  | _ => exact Nat.le_refl _

/-- Everything but a truth value or a rational literal weighs at least two. -/
theorem two_le_weigh (gauge : Gauge) (positive : ∀ n ∈ ns, 1 ≤ n) (other : op.isRational = false) :
    2 ≤ op.weigh config gauge ns := by
  have prod := one_le_prod positive
  cases op with
  | bool | int | real => cases other
  | power => exact two_le_powerWeight _ _ _
  | toReal =>
    exact le_max_right _ _
  | add | not | and | or | implies | xor | ite | neg | sub | mul =>
    simp only [weigh]
    omega
  | eq | distinct => exact Nat.le_add_left_of_le (by decide)
  | lt | gt => simp [weigh]
  | _ => exact Nat.le_refl 2

/-- Unless the head adds to the rank or is a power, an application weighs more than each of its
arguments. -/
theorem lt_weigh {gauge : Gauge} (flat : op.lifts gauge = 0) (power : op ≠ power)
    (compound : op.isCompound = true) (positive : ∀ n ∈ ns, 1 ≤ n) :
    ∀ n ∈ ns, n < op.weigh config gauge ns := by
  intro n member
  have sum : n ≤ ns.sum := List.le_sum_of_mem member
  have raised (k : ℕ) : n + k ≤ (ns.map (· + k)).sum :=
    List.le_sum_of_mem (List.mem_map_of_mem member)
  have prod : n ≤ ns.prod := List.single_le_prod positive n member
  have some := positive n member
  cases op with
  | not | implies | xor | ite | neg | sub | mul =>
    simp only [weigh]
    omega
  | and => exact (Nat.lt_add_of_pos_right (by decide)).trans_le ((raised 3).trans (Nat.le_add_right ..))
  | or | add =>
    exact (Nat.lt_add_of_pos_right (by decide)).trans_le ((raised 1).trans (Nat.le_add_right ..))
  | eq | distinct =>
    have other : gauge.arith = false := by simpa [lifts] using flat
    simp only [weigh, other]
    exact Nat.lt_of_le_of_lt sum (Nat.lt_add_of_pos_right (by decide))
  | toReal =>
    refine lt_max_iff.mpr ?_
    obtain one | several := Nat.lt_or_ge n 2
    · exact .inr one
    · exact .inl (by nlinarith)
  | power => exact absurd rfl power
  | le | lt | ge | gt => cases flat
  | _ => cases compound

end Op

end Weights

namespace Store

/-- Every term but a truth value or a rational literal weighs at least two, and these weigh one. -/
theorem weight_cases (config : SimplifierConfig) (s : Store) (t : TermId) :
    (s.op t).isRational = true ∧ s.weight config t = 1 ∨ 2 ≤ s.weight config t := by
  induction t using Nat.strongRecOn with
  | ind t smaller =>
    have positive : ∀ n ∈ (s.args t).map (s.weight config), 1 ≤ n := by
      refine List.forall_mem_map.mpr fun a member => ?_
      obtain ⟨_, one⟩ | more := smaller a (lt_of_mem_args member)
      · exact one.ge
      · exact Nat.one_le_of_lt more
    rw [weight_eq]
    cases rational : (s.op t).isRational with
    | true =>
      refine .inl ⟨rfl, ?_⟩
      generalize s.op t = op at rational
      cases op <;> first | rfl | cases rational
    | false => exact .inr (Op.two_le_weigh _ positive rational)

/-- No term weighs nothing. -/
theorem one_le_weight (config : SimplifierConfig) (s : Store) (t : TermId) :
    1 ≤ s.weight config t := by
  obtain ⟨_, one⟩ | more := weight_cases config s t
  · exact one.ge
  · exact Nat.one_le_of_lt more

/-- Everything but a truth value or a rational literal weighs at least two. -/
theorem two_le_weight (other : (s.op t).isRational = false) : 2 ≤ s.weight config t := by
  obtain ⟨rational, _⟩ | more := weight_cases config s t
  · rw [other] at rational
    cases rational
  · exact more

/-- The arguments of a term are of no greater rank. -/
theorem rank_le_of_mem_args {a : TermId} (member : a ∈ s.args t) : s.rank a ≤ s.rank t := by
  rw [s.rank_eq t]
  exact (List.le_max_of_le (List.mem_map_of_mem member) le_rfl).trans (Nat.le_add_left ..)

/-- The weight of a term whose view is known. -/
theorem weight_of_view (config : SimplifierConfig) (view : s.view t = (op, args)) :
    s.weight config t = op.weigh config (s.gauge args) (args.map (s.weight config)) := by
  obtain ⟨rfl, rfl⟩ := view_eq_iff.mp view
  exact weight_eq config s t

/-- A term is in the store, and its rank is at most a bound. -/
def Ranked (s : Store) (δ : ℕ) (t : TermId) : Prop := t < s.size ∧ s.rank t ≤ δ

/-- A bound on the rank holds when the store has grown. -/
theorem Ranked.mono (known : s.Ranked δ t) (grown : s.Extends after) : after.Ranked δ t :=
  ⟨grown.lt_size known.1, (grown.rank_eq known.1).le.trans known.2⟩

/-- A bound on the rank is one for the arguments. -/
theorem Ranked.below (a : TermId) (known : s.Ranked δ a) : ∀ b ∈ s.args a, s.Ranked δ b :=
  fun _ member => ⟨(lt_of_mem_args member).trans known.1,
    (rank_le_of_mem_args member).trans known.2⟩

/-- A term is in the store, and rank and weight are at most two bounds. -/
structure Bounded (s : Store) (config : SimplifierConfig) (δ : ℕ) (t : TermId) (n : ℕ) : Prop where
  /-- The term is in the store. -/
  inside : t < s.size
  /-- The rank is at most the first bound. -/
  rank_le : s.rank t ≤ δ
  /-- The weight is at most the second bound. -/
  weight_le : s.weight config t ≤ n

namespace Bounded

/-- Bounds hold when the store has grown. -/
theorem mono (known : s.Bounded config δ t n) (grown : s.Extends after) :
    after.Bounded config δ t n where
  inside := grown.lt_size known.inside
  rank_le := (grown.rank_eq known.inside).le.trans known.rank_le
  weight_le := (grown.weight_eq config known.inside).le.trans known.weight_le

/-- Greater bounds. -/
theorem le (known : s.Bounded config δ t n) (more : n ≤ m) : s.Bounded config δ t m :=
  ⟨known.inside, known.rank_le, known.weight_le.trans more⟩

/-- Bounds hold one by one when the store has grown. -/
theorem mono_all (known : List.Forall₂ (s.Bounded config δ) args ns) (grown : s.Extends after) :
    List.Forall₂ (after.Bounded config δ) args ns :=
  known.imp fun _ _ each => each.mono grown

/-- Terms of some rank have their weights as bounds. -/
theorem self_all (config : SimplifierConfig) (known : ∀ a ∈ args, s.Ranked δ a) :
    List.Forall₂ (s.Bounded config δ) args (args.map (s.weight config)) :=
  List.forall₂_map_right_iff.mpr (List.forall₂_same.mpr fun a member =>
    ⟨(known a member).1, (known a member).2, le_rfl⟩)

/-- Terms with bounds are of the rank of their bounds. -/
theorem ranked (known : s.Bounded config δ t n) : s.Ranked δ t := ⟨known.inside, known.rank_le⟩

/-- The rank of terms with bounds is at most the bound. -/
theorem ranked_all (known : List.Forall₂ (s.Bounded config δ) args ns) :
    ∀ a ∈ args, s.Ranked δ a := by
  induction known with
  | nil => exact nofun
  | cons first _ rest => exact List.forall_mem_cons.mpr ⟨first.ranked, rest⟩

/-- The weights of terms with bounds are at most the bounds. -/
theorem weights_le (known : List.Forall₂ (s.Bounded config δ) args ns) :
    List.Forall₂ (· ≤ ·) (args.map (s.weight config)) ns :=
  List.forall₂_map_left_iff.mpr (known.imp fun _ _ each => each.weight_le)

/-- The weight of a term with a bound on its rank is a bound. -/
theorem self (inside : t < s.size) (rank : s.rank t ≤ δ) :
    s.Bounded config δ t (s.weight config t) := ⟨inside, rank, le_rfl⟩

/-- The arguments of a term have their weights as bounds. -/
theorem of_mem_args {a : TermId} (known : s.Bounded config δ t n) (member : a ∈ s.args t) :
    s.Bounded config δ a (s.weight config a) :=
  .self ((lt_of_mem_args member).trans known.inside)
    ((rank_le_of_mem_args member).trans known.rank_le)

/-- An application whose arguments have bounds. -/
theorem of_view (inside : t < s.size) (view : s.view t = (op, args))
    (known : List.Forall₂ (s.Bounded config δ) args ns) :
    s.Bounded config (op.lifts (s.gauge args) + δ) t (op.weigh config (s.gauge args) ns) := by
  obtain ⟨head, arguments⟩ := view_eq_iff.mp view
  refine ⟨inside, ?_, ?_⟩
  · have each := Store.rank_le.mpr fun a member =>
      (ranked_all known a (arguments ▸ member)).2
    rwa [head, arguments] at each
  · rw [weight_eq, head, arguments]
    exact Op.weigh_mono _ op (weights_le known)

/-- Every rational literal and every truth value weighs one and has rank zero. -/
theorem of_rational (inside : t < s.size) (rational : (s.op t).isRational = true)
    (empty : s.args t = []) : s.Bounded config δ t 1 := by
  refine ⟨inside, ?_, ?_⟩
  · rw [rank_eq, empty]
    generalize s.op t = op at rational
    cases op <;> first | exact Nat.zero_le δ | cases rational
  · obtain ⟨_, one⟩ | more := weight_cases config s t
    · exact one.le
    · rw [weight_eq]
      generalize s.op t = op at rational
      cases op <;> first | exact le_rfl | cases rational

end Bounded

end Store

namespace Terms

variable {a b c : TermId} {δ' : ℕ}

/-- An application of terms with bounds. -/
theorem mkApp_bounded (op : Op) (known : List.Forall₂ (s.Bounded config δ) args ns)
    (rank : op.lifts (s.gauge args) + δ ≤ δ') (weight : op.weigh config (s.gauge args) ns ≤ m) :
    (mkApp op args).Ensures s fun t after => after.Bounded config δ' t m := by
  have inside := fun a member => (Store.Bounded.ranked_all known a member).1
  refine (mkApp_node inside).imp fun t after grown node => ?_
  have view : after.view t = (op, args) := by rw [Store.view, node.2]
  have built := Store.Bounded.of_view node.1 view (Store.Bounded.mono_all known grown)
  rw [grown.gauge_eq inside] at built
  exact ⟨built.inside, built.rank_le.trans rank, built.weight_le.trans weight⟩

/-- An application of an operator that adds nothing to the rank. -/
theorem mkFlat_bounded (op : Op) (flat : ∀ gauge, op.lifts gauge = 0)
    (known : List.Forall₂ (s.Bounded config δ) args ns) :
    (mkApp op args).Ensures s fun t after =>
      after.Bounded config δ t (op.weigh config (s.gauge args) ns) :=
  mkApp_bounded op known (by rw [flat, Nat.zero_add]) le_rfl

/-- A truth value. -/
theorem bounded_ofBool (s : Store) (p : Bool) : s.Bounded config δ (ofBool p) 1 := by
  cases p with
  | true =>
    obtain ⟨inside, node⟩ := s.node_trueId
    exact .of_rational inside (by rw [ofBool, if_pos rfl, Store.op, node]; rfl)
      (by rw [ofBool, if_pos rfl, Store.args, node])
  | false =>
    obtain ⟨inside, node⟩ := s.node_falseId
    exact .of_rational inside (by rw [ofBool, if_neg Bool.false_ne_true, Store.op, node]; rfl)
      (by rw [ofBool, if_neg Bool.false_ne_true, Store.args, node])

/-- An integer literal. -/
theorem mkInt_bounded (config : SimplifierConfig) (δ : ℕ) (z : ℤ) :
    (mkInt z).Ensures s fun t after => after.op t = .int z ∧ after.Bounded config δ t 1 := by
  refine (intern_node (by simp)).imp fun t after _ found => ?_
  obtain ⟨inside, node⟩ := found
  have head : after.op t = .int z := by rw [Store.op, node]
  exact ⟨head, .of_rational inside (head ▸ rfl) (by rw [Store.args, node])⟩

/-- A rational literal. -/
theorem mkNumeral_bounded (config : SimplifierConfig) (δ : ℕ) (r : ℚ) (isInt : Bool) :
    (mkNumeral r isInt).Ensures s fun t after => after.Bounded config δ t 1 := by
  unfold mkNumeral
  split
  · exact (mkInt_bounded config δ r.num).imp fun _ _ _ built => built.2
  · exact (intern_node (by simp)).imp fun t after _ ⟨inside, node⟩ =>
      .of_rational inside (by rw [Store.op, node]; rfl) (by rw [Store.args, node])

/-- Sum. -/
theorem mkAdd_bounded (known : List.Forall₂ (s.Bounded config δ) args ns) :
    (mkAdd args).Ensures s fun t after => after.Bounded config δ t ((ns.map (· + 1)).sum + 2) := by
  match args, ns, known with
  | [a], [n], .cons only .nil => exact only.le (by simp; omega)
  | [], [], known => exact mkFlat_bounded .add (fun _ => rfl) known
  | _ :: _ :: _, _ :: _ :: _, known => exact mkFlat_bounded .add (fun _ => rfl) known

/-- Product. -/
theorem mkMul_bounded (known : List.Forall₂ (s.Bounded config δ) args ns) :
    (mkMul args).Ensures s fun t after => after.Bounded config δ t (2 * ns.prod) := by
  match args, ns, known with
  | [a], [n], .cons only .nil => exact only.le (by simp; omega)
  | [], [], known => exact mkFlat_bounded .mul (fun _ => rfl) known
  | _ :: _ :: _, _ :: _ :: _, known => exact mkFlat_bounded .mul (fun _ => rfl) known

/-- Power with an integer literal as exponent. -/
theorem mkPower_bounded {e : TermId} {z : ℤ} (base : s.Bounded config δ a n)
    (exponent : s.op e = .int z ∧ s.Bounded config δ e 1) :
    (mkApp .power [a, e]).Ensures s fun t after =>
      after.Bounded config δ t (config.powerWeight n z.toNat) := by
  obtain ⟨literal, known⟩ := exponent
  refine (mkFlat_bounded .power (fun _ => rfl) (.cons base (.cons known .nil))).imp
    fun _ _ _ built => ?_
  simpa [Op.weigh, Store.gauge, Store.numeral?, literal, Rational.ofInt] using built

/-- Negation. -/
theorem mkNot_bounded (known : s.Bounded config δ a n) :
    (mkNot a).Ensures s fun t after => after.Bounded config δ t (n + 2) :=
  (mkFlat_bounded .not (fun _ => rfl) (.cons known .nil)).imp fun _ _ _ built =>
    built.le (by simp [Op.weigh])

/-- Conjunction. -/
theorem mkAnd_bounded (known : List.Forall₂ (s.Bounded config δ) args ns) :
    (mkAnd args).Ensures s fun t after => after.Bounded config δ t ((ns.map (· + 3)).sum + 5) := by
  match args, ns, known with
  | [], [], .nil => exact (bounded_ofBool s true).le (by simp)
  | [a], [n], .cons only .nil => exact only.le (by simp; omega)
  | _ :: _ :: _, _ :: _ :: _, known => exact mkFlat_bounded .and (fun _ => rfl) known

/-- Disjunction. -/
theorem mkOr_bounded (known : List.Forall₂ (s.Bounded config δ) args ns) :
    (mkOr args).Ensures s fun t after => after.Bounded config δ t ((ns.map (· + 1)).sum + 2) := by
  match args, ns, known with
  | [], [], .nil => exact (bounded_ofBool s false).le (by simp)
  | [a], [n], .cons only .nil => exact only.le (by simp; omega)
  | _ :: _ :: _, _ :: _ :: _, known => exact mkFlat_bounded .or (fun _ => rfl) known

/-- Case distinction. -/
theorem mkIte_bounded (condition : s.Bounded config δ c k) (yes : s.Bounded config δ a m)
    (no : s.Bounded config δ b n) : (mkIte c a b).Ensures s fun t after =>
      after.Bounded config δ t (2 * (k + m + n) + 20) :=
  (mkFlat_bounded .ite (fun _ => rfl) (.cons condition (.cons yes (.cons no .nil)))).imp
    fun _ _ _ built => built.le (by simp [Op.weigh]; omega)

end Terms

/-- A rule makes a term lighter before it has it visited again, and no result is heavier or of
greater rank than the bounds allow. -/
def Outcome.Falls (o : Outcome) (s : Store) (config : SimplifierConfig) (δ n : ℕ) : Prop :=
  match o with
  | failed => True
  | done r => s.Bounded config δ r n
  | revisit _ r => ∃ m < n, s.Bounded config δ r m
  | revisitAll _ => False

/-- A result falls below greater bounds. -/
theorem Outcome.Falls.le {o : Outcome} (falls : o.Falls s config δ m) (more : m ≤ n) :
    o.Falls s config δ n := by
  cases o with
  | failed => trivial
  | done r => exact Store.Bounded.le falls more
  | revisit depth r =>
    obtain ⟨k, less, known⟩ := falls
    exact ⟨k, less.trans_le more, known⟩
  | revisitAll r => exact falls

namespace Rule

variable {work : Terms TermId}

/-- A rule that builds a term with a bound for every member of a list. -/
theorem ensures_mapM_bounded {α : Type} {rule : α → Rule TermId} {members : List α} {bound : α → ℕ}
    (each : ∀ a ∈ members, ∀ now, s.Extends now →
      (rule a).Ensures config now fun t after => after.Bounded config δ t (bound a)) :
    (members.mapM rule).Ensures config s fun terms after =>
      List.Forall₂ (after.Bounded config δ) terms (members.map bound) :=
  (ensures_mapM (fun _ _ _ _ more known => known.mono more) members each).imp
    fun _ _ _ known => List.forall₂_map_right_iff.mpr known.flip

/-- A rule that answers with a result. -/
theorem ensures_done (built : work.Ensures s fun r after => after.Bounded config δ r n) :
    (liftM work >>= fun r => pure (.done r) : Rule Outcome).Ensures config s
      fun o after => o.Falls after config δ n :=
  ensures_bind (ensures_lift built) fun _ _ _ known => ensures_pure known

/-- A rule that has a lighter result visited again. -/
theorem ensures_revisit {depth : ℕ}
    (built : work.Ensures s fun r after => after.Bounded config δ r m) (less : m < n) :
    (liftM work >>= fun r => pure (.revisit depth r) : Rule Outcome).Ensures config s
      fun o after => o.Falls after config δ n :=
  ensures_bind (ensures_lift built) fun _ _ _ known => ensures_pure ⟨m, less, known⟩

end Rule
end Stratagem
