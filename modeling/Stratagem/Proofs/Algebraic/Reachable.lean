import Stratagem.Proofs.Algebraic.Arithmetic

/-!
# Reachable numerals

The numerals that operations compute from rationals are exact: each operation returns a numeral of
the number that its operands ask for, whose parts agree on it (`Numeral.operations_exact`).
-/
namespace Stratagem

/-- The parts of an irrational number: a square-free primitive integer polynomial, the position of
one of its roots, and an interval whose only root that is and whose ends are no roots. -/
structure Algebraic.Regular (a : Algebraic) : Prop where
  /-- The polynomial is square-free. -/
  squareFree : Squarefree a.poly.toPolynomial
  /-- It has integer coefficients without a common divisor. -/
  primitive : a.poly.IsPrimitive
  /-- There is a root at the position. -/
  position : a.rootIndex < a.poly.realRoots.card
  /-- The interval holds that root and no other. -/
  isolates : a.interval.Isolates a.poly (a.poly.rootAt a.rootIndex)
  /-- The ends of the interval are no roots. -/
  ends : a.poly.eval a.interval.lo ≠ 0 ∧ a.poly.eval a.interval.hi ≠ 0

theorem Algebraic.Represents.regular {a : Algebraic} {v : ℝ} (known : a.Represents v) :
    a.Regular where
  squareFree := known.separable.squarefree
  primitive := known.primitive
  position := by
    rw [known.position]
    exact Finset.card_lt_card
      (Finset.filter_ssubset.mpr ⟨v, known.mem_realRoots, lt_irrefl v⟩)
  isolates := by
    rw [known.rootAt_eq]
    exact known.isolates
  ends := by
    have ordered := known.isolates.lo_lt_hi.le
    exact ⟨known.isolates.eval_ne_zero le_rfl ordered known.isolates.lo_lt.ne,
      known.isolates.eval_ne_zero ordered le_rfl known.isolates.lt_hi.ne'⟩

namespace Numeral

open Stratagem.Algebraic Stratagem.Algebraic.Compute

variable {a b : Numeral} {bound : ℕ∞} {limits : Algebraic.Limits}

/-- The parts of the numeral agree on its value, and its degree is bounded. -/
abbrev Bounded (bound : ℕ∞) (a : Numeral) : Prop := a.Denotes bound a.value

theorem Denotes.self {v : ℝ} (known : a.Denotes bound v) : a.Bounded bound := by
  rw [Bounded, known.value_eq]
  exact known

/-! ### Reachable numerals -/

/-- An operation on numerals with its operands. -/
inductive Operation where
  /-- Negation. -/
  | neg (a : Numeral)
  /-- Sum. -/
  | add (a b : Numeral)
  /-- Difference. -/
  | sub (a b : Numeral)
  /-- Product. -/
  | mul (a b : Numeral)
  /-- Reciprocal. -/
  | inv (a : Numeral)
  /-- Quotient. -/
  | div (a b : Numeral)
  /-- Power. -/
  | power (a : Numeral) (k : ℕ)
  /-- Principal root. -/
  | root (a : Numeral) (k : ℕ)

namespace Operation

/-- The operands that are numerals. -/
def operands : Operation → List Numeral
  | neg a | inv a | power a _ | root a _ => [a]
  | add a b | sub a b | mul a b | div a b => [a, b]

/-- The computation of the result. -/
def compute : Operation → Compute Numeral
  | neg a => pure a.neg
  | add a b => a.add b
  | sub a b => a.sub b
  | mul a b => a.mul b
  | inv a => a.inv
  | div a b => a.div b
  | power a k => a.power k
  | root a k => a.root k

/-- The real number is what the operation asks for. -/
def Asks : Operation → ℝ → Prop
  | neg a, x => x = -a.value
  | add a b, x => x = a.value + b.value
  | sub a b, x => x = a.value - b.value
  | mul a b, x => x = a.value * b.value
  | inv a, x => a.value ≠ 0 ∧ x = a.value⁻¹
  | div a b, x => b.value ≠ 0 ∧ x = a.value / b.value
  | power a k, x => x = a.value ^ k
  | root a k, x => k ≠ 0 ∧ x ^ k = a.value ∧ (k % 2 = 0 → 0 ≤ x)

/-- What an operation returns denotes what it asks for. -/
theorem ensures_compute (operation : Operation)
    (known : ∀ a ∈ operation.operands, a.Bounded bound) (cap : limits.maxDegree ≤ bound) :
    operation.compute.Ensures limits
      fun n => ∃ x, operation.Asks x ∧ n.Denotes bound x := by
  cases operation with
  | neg a => exact ensures_pure ⟨_, rfl, (known a (by simp [operands])).neg⟩
  | add a b =>
    exact ensures_mono
      (ensures_add (known a (by simp [operands])) (known b (by simp [operands])) cap)
      fun n denoted => ⟨_, rfl, denoted⟩
  | sub a b =>
    exact ensures_mono
      (ensures_add (known a (by simp [operands])) (known b (by simp [operands])).neg cap)
      fun n denoted => ⟨_, (sub_eq_add_neg _ _).symm, denoted⟩
  | mul a b =>
    exact ensures_mono
      (ensures_mul (known a (by simp [operands])) (known b (by simp [operands])) cap)
      fun n denoted => ⟨_, rfl, denoted⟩
  | inv a =>
    exact ensures_mono (ensures_inv (known a (by simp [operands])))
      fun n asked => ⟨_, ⟨asked.1, rfl⟩, asked.2⟩
  | div a b =>
    refine ensures_bind (ensures_inv (known b (by simp [operands]))) fun inverse asked => ?_
    exact ensures_mono (ensures_mul (known a (by simp [operands])) asked.2 cap)
      fun n denoted => ⟨_, ⟨asked.1, (div_eq_mul_inv _ _).symm⟩, denoted⟩
  | power a k =>
    exact ensures_mono (ensures_power (known a (by simp [operands])) cap k)
      fun n denoted => ⟨_, rfl, denoted⟩
  | root a k =>
    refine ensures_mono (ensures_root (known a (by simp [operands])) cap k) ?_
    rintro n ⟨positive, y, denoted, asked⟩
    exact ⟨y, ⟨positive, asked⟩, denoted⟩

end Operation

/-- The numerals that operations compute from rationals, each under limits that are allowed. The
interval of a numeral may be halved in between. -/
inductive Reachable (allowed : Algebraic.Limits → Prop) : Numeral → Prop
  /-- A rational. -/
  | rational (r : ℚ) : Reachable allowed (.rational r)
  /-- A numeral with a narrower interval. -/
  | refine {a : Numeral} (known : Reachable allowed a) : Reachable allowed a.refine
  /-- The result of an operation. -/
  | compute {operation : Operation} {limits : Algebraic.Limits} {tally : Tally} {n : Numeral}
    (fits : allowed limits) (known : ∀ a ∈ operation.operands, Reachable allowed a)
    (returned : (operation.compute.run limits tally).1 = .ok n) : Reachable allowed n

theorem Reachable.bounded {allowed : Algebraic.Limits → Prop} (known : Reachable allowed a)
    (cap : ∀ limits, allowed limits → limits.maxDegree ≤ bound) : a.Bounded bound := by
  induction known with
  | rational r => exact denotes_rational rfl
  | refine _ ih => exact ih.refine.self
  | compute fits _ returned ih =>
    obtain ⟨x, -, denoted⟩ :=
      Operation.ensures_compute _ ih (cap _ fits) _ _ returned
    exact denoted.self

theorem Reachable.wellFormed {allowed : Algebraic.Limits → Prop} (known : Reachable allowed a) :
    a.WellFormed := by
  have bounded : a.Bounded ⊤ := known.bounded fun _ _ => le_top
  exact bounded.represents

/-- **Operations on reachable numerals are exact**: whatever an operation returns denotes the real
number that it asks for, the parts of an irrational result agree, and the degree stays within the
limit that every operation so far was under. -/
theorem operations_exact {allowed : Algebraic.Limits → Prop}
    (cap : ∀ limits, allowed limits → limits.maxDegree ≤ bound) {operation : Operation}
    (known : ∀ a ∈ operation.operands, Reachable allowed a) (fits : allowed limits) {tally : Tally}
    {n : Numeral} (returned : (operation.compute.run limits tally).1 = .ok n) :
    operation.Asks n.value ∧ ∀ x, n = irrational x → x.Regular ∧ x.degree ≤ bound := by
  obtain ⟨v, asked, denoted⟩ := operation.ensures_compute
    (fun a member => (known a member).bounded cap) (cap _ fits) tally n returned
  rw [denoted.value_eq]
  refine ⟨asked, ?_⟩
  rintro x rfl
  exact ⟨Algebraic.Represents.regular denoted.represents, denoted.bounded⟩

/-- The sum of the square roots of two and of three, which are computed first, is the greatest root
of its polynomial. -/
theorem operations_exact_sqrt_add :
    let two := irrational ⟨.ofInts [-2, 0, 1], 1, ⟨3 / 4, 3 / 2⟩⟩
    let three := irrational ⟨.ofInts [-3, 0, 1], 1, ⟨3 / 2, 2⟩⟩
    let sum : Algebraic := ⟨.ofInts [1, 0, -10, 0, 1], 3, ⟨11 / 4, 55 / 16⟩⟩
    ((root (rational 2) 2).run {} {}).1 = .ok two ∧
    ((root (rational 3) 2).run {} {}).1 = .ok three ∧
    ((add two three).run {} {}).1 = .ok (irrational sum) ∧
    (irrational sum).value = two.value + three.value ∧ sum.Regular ∧ sum.degree ≤ (64 : ℕ∞) := by
  intro two three sum
  have first : ((root (rational 2) 2).run {} {}).1 = .ok two := by decide +kernel
  have second : ((root (rational 3) 2).run {} {}).1 = .ok three := by decide +kernel
  have third : ((add two three).run {} {}).1 = .ok (irrational sum) := by decide +kernel
  have squareRoot {r : ℚ} {n : Numeral} (computed : ((root (rational r) 2).run {} {}).1 = .ok n) :
      Reachable (· = {}) n := by
    have known : ∀ a ∈ (Operation.root (rational r) 2).operands, Reachable (· = {}) a :=
      fun a member => List.mem_singleton.mp member ▸ .rational r
    exact .compute rfl known computed
  have known : ∀ a ∈ (Operation.add two three).operands, Reachable (· = {}) a := by
    intro a member
    rcases List.mem_cons.mp member with rfl | member
    · exact squareRoot first
    · rw [List.mem_singleton.mp member]
      exact squareRoot second
  have cap (limits : Algebraic.Limits) (same : limits = {}) :
      (limits.maxDegree : ℕ∞) ≤ 64 := by
    rw [same]
    rfl
  have sound := operations_exact cap known rfl third
  exact ⟨first, second, third, sound.1, sound.2 sum rfl⟩

end Numeral
end Stratagem
