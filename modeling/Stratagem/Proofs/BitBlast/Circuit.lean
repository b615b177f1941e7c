import Mathlib.Algebra.Ring.Nat
import Stratagem.BitBlast.Circuit
import Stratagem.Converter.Model
import Stratagem.Proofs.Term.Reading

/-!
# What circuits compute

Gates compute the connectives, and circuits the operations on bit-vectors, at every width. This
holds in every reading of terms as truth values that agrees with the connectives, so nothing here
depends on how constants are read. The bits of a vector are a list of truth values with the least
significant first; sums, products and comparisons are first shown for the numbers that such lists
stand for and then for the bit-vectors of the library.
-/
namespace Stratagem

open Terms
open ModelConverter (numberOf)

namespace Gate

variable {R : Reading} {s : Store} {a b c : TermId} {p q r : Bool}

/-- The gate of negation. -/
theorem not_bit (known : R.Bit s a p) : (not a).Ensures s fun t after => R.Bit after t (!p) := by
  unfold not
  split_ifs with isTrue isFalse
  · exact R.ensures_pure (R.falseId s) (by rw [R.eq_true known isTrue, Bool.not_true])
  · exact R.ensures_pure (R.trueId s) (by rw [R.eq_false known isFalse, Bool.not_false])
  · apply ensures_read_bind
    split
    · next b view => exact R.of_not known view
    · exact R.not known

/-- The gate of conjunction. -/
theorem and_bit (left : R.Bit s a p) (right : R.Bit s b q) :
    (and a b).Ensures s fun t after => R.Bit after t (p && q) := by
  unfold and
  split_ifs with absorbing neutral rest
  · apply R.ensures_pure (R.falseId s)
    rcases absorbing with first | second
    · rw [R.eq_false left first, Bool.false_and]
    · rw [R.eq_false right second, Bool.and_false]
  · apply R.ensures_pure right
    rcases neutral with first | same
    · rw [R.eq_true left first, Bool.true_and]
    · rw [R.eq_of_eq left right same, Bool.and_self]
  · exact R.ensures_pure left (by rw [R.eq_true right rest, Bool.and_true])
  · have both : R.Bits s [a, b] [p, q] := .cons left (.cons right .nil)
    apply (R.and both).imp
    intro t after _ built
    simpa using built

/-- The gate of disjunction. -/
theorem or_bit (left : R.Bit s a p) (right : R.Bit s b q) :
    (or a b).Ensures s fun t after => R.Bit after t (p || q) := by
  unfold or
  split_ifs with absorbing neutral rest
  · apply R.ensures_pure (R.trueId s)
    rcases absorbing with first | second
    · rw [R.eq_true left first, Bool.true_or]
    · rw [R.eq_true right second, Bool.or_true]
  · apply R.ensures_pure right
    rcases neutral with first | same
    · rw [R.eq_false left first, Bool.false_or]
    · rw [R.eq_of_eq left right same, Bool.or_self]
  · exact R.ensures_pure left (by rw [R.eq_false right rest, Bool.or_false])
  · have both : R.Bits s [a, b] [p, q] := .cons left (.cons right .nil)
    apply (R.or both).imp
    intro t after _ built
    simpa using built

/-- The gate of difference. -/
theorem xor_bit (left : R.Bit s a p) (right : R.Bit s b q) :
    (xor a b).Ensures s fun t after => R.Bit after t (p ^^ q) := by
  unfold xor
  split_ifs with equal first second third fourth
  · exact R.ensures_pure (R.falseId s) (by rw [R.eq_of_eq left right equal, Bool.xor_self])
  · exact R.ensures_pure right (by rw [R.eq_false left first, Bool.false_xor])
  · exact R.ensures_pure left (by rw [R.eq_false right second, Bool.xor_false])
  · rw [R.eq_true left third, Bool.true_xor]
    exact not_bit right
  · rw [R.eq_true right fourth, Bool.xor_true]
    exact not_bit left
  · exact R.xor left right

/-- The gate of equality. -/
theorem iff_bit (left : R.Bit s a p) (right : R.Bit s b q) :
    (iff a b).Ensures s fun t after => R.Bit after t (p == q) := by
  apply ensures_bind (xor_bit left right)
  intro t after _ differs
  have same : (!(p ^^ q)) = (p == q) := by cases p <;> cases q <;> rfl
  exact same ▸ not_bit differs

/-- The gate of choice. -/
theorem mux_bit (condition : R.Bit s c r) (left : R.Bit s a p) (right : R.Bit s b q) :
    (mux c a b).Ensures s fun t after => R.Bit after t (if r then p else q) := by
  unfold mux
  by_cases first : c = Store.trueId ∨ a = b
  · rw [if_pos first]
    apply R.ensures_pure left
    rcases first with literal | same
    · rw [R.eq_true condition literal, if_pos rfl]
    · rw [R.eq_of_eq left right same, ite_self]
  · rw [if_neg first]
    by_cases second : c = Store.falseId
    · rw [if_pos second]
      apply R.ensures_pure right
      rw [R.eq_false condition second, if_neg Bool.false_ne_true]
    · rw [if_neg second]
      exact R.ite condition left right

/-- The truth values of the terms that are not the literal `true`. -/
theorem filter_bits {terms : Bits} {ps : List Bool} (known : R.Bits s terms ps) :
    ∃ qs, R.Bits s (terms.filter (· != Store.trueId)) qs ∧ qs.all id = ps.all id := by
  induction known with
  | nil => exact ⟨[], .nil, rfl⟩
  | @cons t p terms ps bit _ rest =>
    obtain ⟨qs, bits, same⟩ := rest
    by_cases literal : t = Store.trueId
    · have isTrue : p = true := R.unique (literal ▸ bit) (R.trueId s)
      exact ⟨qs, by simpa [literal] using bits, by simp [isTrue, same]⟩
    · exact ⟨p :: qs, by simpa [literal] using bits.cons bit, by simp [same]⟩

/-- The gate of conjunction of any number of bits. -/
theorem all_bit {terms : Bits} {ps : List Bool} (known : R.Bits s terms ps) :
    (all terms).Ensures s fun t after => R.Bit after t (ps.all id) := by
  unfold all
  split_ifs with found
  · obtain ⟨p, inside, bit⟩ := exists_of_forall₂ known (List.contains_iff_mem.mp found)
    have isFalse : p = false := R.unique bit (R.falseId s)
    have absent : ps.all id = false := by
      rw [List.all_eq_false]
      exact ⟨p, inside, by simp [isFalse]⟩
    exact absent ▸ R.falseId s
  · obtain ⟨qs, bits, same⟩ := filter_bits known
    exact same ▸ R.and bits

end Gate

section Numbers

/-- A list of bits stands for a number below two to its length. -/
theorem numberOf_lt (ps : List Bool) : numberOf ps < 2 ^ ps.length := by
  induction ps with
  | nil => decide
  | cons p rest tail =>
    have digit : p.toNat < 2 := Bool.toNat_lt p
    rw [numberOf, List.length_cons, Nat.pow_succ]
    omega

/-- Lists of bits of one length that stand for one number are equal. -/
theorem eq_of_numberOf_eq {ps qs : List Bool} (length : ps.length = qs.length)
    (same : numberOf ps = numberOf qs) : ps = qs := by
  induction ps generalizing qs with
  | nil => exact (List.length_eq_zero_iff.mp length.symm).symm
  | cons p rest tail =>
    cases qs with
    | nil => cases length
    | cons q others =>
      simp only [numberOf] at same
      have first : p = q := by
        cases p <;> cases q <;> simp only [Bool.toNat_true, Bool.toNat_false] at same <;>
          first | rfl | omega
      subst first
      rw [tail (by simpa using length) (by omega)]

/-- The number of the complemented bits. -/
theorem numberOf_map_not (ps : List Bool) :
    numberOf (ps.map (!·)) + numberOf ps + 1 = 2 ^ ps.length := by
  induction ps with
  | nil => rfl
  | cons p rest tail =>
    simp only [List.map_cons, numberOf, List.length_cons, Nat.pow_succ]
    cases p <;> simp only [Bool.not_true, Bool.not_false, Bool.toNat_true, Bool.toNat_false] <;>
      omega

/-- Bits that are all zero stand for zero. -/
theorem numberOf_replicate (count : ℕ) : numberOf (List.replicate count false) = 0 := by
  induction count with
  | zero => rfl
  | succ count tail => rw [List.replicate_succ, numberOf, tail, Bool.toNat_false]

/-- A digit below a number modulo a power of two. -/
theorem digit_add_mod (p : Bool) (x n : ℕ) :
    p.toNat + 2 * (x % 2 ^ n) = (p.toNat + 2 * x) % 2 ^ (n + 1) := by
  have digit : p.toNat < 2 := Bool.toNat_lt p
  have small := Nat.mod_lt x (Nat.two_pow_pos n)
  have whole := Nat.div_add_mod x (2 ^ n)
  have split : p.toNat + 2 * x = p.toNat + 2 * (x % 2 ^ n) + 2 ^ (n + 1) * (x / 2 ^ n) := by
    rw [Nat.pow_succ, Nat.mul_comm (2 ^ n) 2, Nat.mul_assoc]
    omega
  have bound : p.toNat + 2 * (x % 2 ^ n) < 2 ^ (n + 1) := by
    rw [Nat.pow_succ]
    omega
  rw [split, Nat.add_mul_mod_self_left, Nat.mod_eq_of_lt bound]

/-- The number of an initial part of a list of bits. -/
theorem numberOf_dropLast (p : Bool) (ps : List Bool) :
    numberOf (p :: ps).dropLast = numberOf (p :: ps) % 2 ^ ps.length := by
  induction ps generalizing p with
  | nil => cases p <;> rfl
  | cons q rest tail =>
    rw [List.dropLast_cons_cons, numberOf, tail, digit_add_mod]
    rfl

/-- The number of the bits that a digit leaves. -/
theorem numberOf_map_and (q : Bool) (ps : List Bool) :
    numberOf (ps.map (q && ·)) = numberOf ps * q.toNat := by
  induction ps with
  | nil => simp [numberOf]
  | cons p rest tail =>
    cases p <;> cases q <;> simp_all [numberOf]

/-- Products may be taken of remainders. -/
theorem add_mod_mul_mod (x y z m : ℕ) : (x % m + y % m * z) % m = (x + y * z) % m := by
  simp [Nat.add_mod, Nat.mul_mod]

end Numbers

namespace Circuit

variable {R : Reading} {s : Store} {a b : Bits} {ps qs : List Bool}

/-- The literal bits of a number. -/
theorem ofNat_bits (value width : ℕ) :
    R.Bits s (ofNat value width) ((List.range width).map value.testBit) := by
  apply List.forall₂_map_left_iff.mpr
  apply List.forall₂_map_right_iff.mpr
  exact List.forall₂_same.mpr fun i _ => R.ofBool s _

/-- Vectors of zeros. -/
theorem zeros_bits (a : Bits) :
    R.Bits s (a.map fun _ => Store.falseId) (List.replicate a.length false) := by
  induction a with
  | nil => exact .nil
  | cons _ rest tail => exact .cons (R.falseId s) tail

/-- A gate at every position of a vector. -/
theorem mapM_bits {gate : TermId → Terms TermId} {f : Bool → Bool} (known : R.Bits s a ps)
    (computes : ∀ now t p, s.Extends now → R.Bit now t p →
      (gate t).Ensures now fun u after => R.Bit after u (f p)) :
    (a.mapM gate).Ensures s fun out after => R.Bits after out (ps.map f) := by
  have each : (a.mapM gate).Ensures s fun out after =>
      List.Forall₂ (fun u p => R.Bit after u (f p)) out ps :=
    ensures_mapM_forall₂ (K := R.Bit) (F := fun s u p => R.Bit s u (f p))
      (fun _ _ _ _ more bit => R.mono bit more) (fun _ _ _ _ more bit => R.mono bit more) known
      fun t p now grown bit => computes now t p grown bit
  exact each.imp fun out after _ bits => List.forall₂_map_right_iff.mpr bits

/-- Pairs of terms have pairs of truth values one by one. -/
abbrev Pairs (R : Reading) (s : Store) (pairs : List (TermId × TermId))
    (rs : List (Bool × Bool)) : Prop :=
  List.Forall₂ (fun x r => R.Bit s x.1 r.1 ∧ R.Bit s x.2 r.2) pairs rs

/-- Truth values do not change when the store grows. -/
theorem Pairs.mono {pairs : List (TermId × TermId)} {rs : List (Bool × Bool)} {after : Store}
    (known : Pairs R s pairs rs) (grown : s.Extends after) : Pairs R after pairs rs :=
  known.imp fun _ _ bits => ⟨R.mono bits.1 grown, R.mono bits.2 grown⟩

/-- The truth values at the positions of two vectors. -/
theorem zip_bits (left : R.Bits s a ps) (right : R.Bits s b qs) :
    Pairs R s (a.zip b) (ps.zip qs) := by
  induction left generalizing b qs with
  | nil => exact .nil
  | cons first _ rest =>
    cases right with
    | nil => exact .nil
    | cons second others => exact .cons ⟨first, second⟩ (rest others)

/-- A gate at every position of two vectors. -/
theorem zipWith_bits {gate : TermId → TermId → Terms TermId} {f : Bool → Bool → Bool}
    (left : R.Bits s a ps) (right : R.Bits s b qs)
    (computes : ∀ now x y p q, s.Extends now → R.Bit now x p → R.Bit now y q →
      (gate x y).Ensures now fun u after => R.Bit after u (f p q)) :
    (zipWith gate a b).Ensures s fun out after => R.Bits after out (ps.zipWith f qs) := by
  have each : (zipWith gate a b).Ensures s fun out after =>
      List.Forall₂ (fun u r => R.Bit after u (f r.1 r.2)) out (ps.zip qs) :=
    ensures_mapM_forall₂ (K := fun s (x : TermId × TermId) (r : Bool × Bool) => R.Bit s x.1 r.1 ∧ R.Bit s x.2 r.2)
      (F := fun s u r => R.Bit s u (f r.1 r.2))
      (fun _ _ _ _ more bits => ⟨R.mono bits.1 more, R.mono bits.2 more⟩)
      (fun _ _ _ _ more bit => R.mono bit more) (zip_bits left right)
      fun x r now grown bits => computes now x.1 x.2 r.1 r.2 grown bits.1 bits.2
  refine each.imp fun out after _ bits => ?_
  rw [← List.map_uncurry_zip_eq_zipWith]
  exact List.forall₂_map_right_iff.mpr bits

/-- The sum and the carry of a position, as a number. -/
theorem sum_add_carry (p q c : Bool) :
    ((p ^^ q) ^^ c).toNat + 2 * ((p && q) || ((p ^^ q) && c)).toNat =
      p.toNat + q.toNat + c.toNat := by
  cases p <;> cases q <;> cases c <;> rfl

/-- Bits that stand for a number modulo two to their count. -/
def Holds (R : Reading) (s : Store) (out : Bits) (width value : ℕ) : Prop :=
  ∃ rs, R.Bits s out rs ∧ rs.length = width ∧ numberOf rs = value % 2 ^ width

/-- Addition from the least significant position on. -/
theorem ripple_holds {pairs : List (TermId × TermId)} {rs : List (Bool × Bool)} {carry : TermId}
    {c : Bool} (known : Pairs R s pairs rs) (low : R.Bit s carry c) :
    (ripple pairs carry).Ensures s fun out after => Holds R after out rs.length
      (numberOf (rs.map (·.1)) + numberOf (rs.map (·.2)) + c.toNat) := by
  induction pairs generalizing s rs carry c with
  | nil =>
    cases known
    exact ⟨[], .nil, rfl, by simp [numberOf, Nat.mod_one]⟩
  | cons x pairs tail =>
    obtain ⟨x, y⟩ := x
    cases known with
    | @cons _ r _ rs first others =>
    obtain ⟨p, q⟩ := r
    obtain ⟨left, right⟩ := first
    unfold ripple
    refine ensures_bind (Gate.xor_bit left right) fun half s₁ g₁ halfBit => ?_
    refine ensures_bind (Gate.xor_bit halfBit (R.mono low g₁)) fun sum s₂ g₂ sumBit => ?_
    have early := g₁.trans g₂
    refine ensures_bind (Gate.and_bit (R.mono left early) (R.mono right early))
      fun both s₃ g₃ bothBit => ?_
    refine ensures_bind (Gate.and_bit (R.mono halfBit (g₂.trans g₃)) (R.mono low (early.trans g₃)))
      fun passed s₄ g₄ passedBit => ?_
    refine ensures_bind (Gate.or_bit (R.mono bothBit g₄) passedBit) fun carry s₅ g₅ carryBit => ?_
    have late := (g₃.trans g₄).trans g₅
    refine ensures_bind (tail (Pairs.mono others (early.trans late)) carryBit)
      fun out after g₆ result => ?_
    obtain ⟨bits, known, length, number⟩ := result
    refine ensures_pure ⟨_ :: bits, .cons (R.mono sumBit (late.trans g₆)) known, ?_, ?_⟩
    · rw [List.length_cons, List.length_cons, length]
    · rw [numberOf, number, digit_add_mod, List.length_cons]
      congr 1
      have digits := sum_add_carry p q c
      simp only [List.map_cons, numberOf]
      omega

/-- The order of two numbers by their least significant digits and the rest. -/
theorem less_step (p q c : Bool) (x y : ℕ) :
    (decide (x < y) || (decide (x = y) && ((!p && q) || ((p == q) && c)))) =
      (decide (p.toNat + 2 * x < q.toNat + 2 * y) ||
        (decide (p.toNat + 2 * x = q.toNat + 2 * y) && c)) := by
  rw [Bool.eq_iff_iff]
  cases p <;> cases q <;> cases c <;> simp <;> omega

/-- Whether one number is less than another, from the least significant position on. -/
theorem lessFrom_bit {pairs : List (TermId × TermId)} {rs : List (Bool × Bool)} {less : TermId}
    {c : Bool} (known : Pairs R s pairs rs) (low : R.Bit s less c) :
    (lessFrom pairs less).Ensures s fun t after => R.Bit after t
      (decide (numberOf (rs.map (·.1)) < numberOf (rs.map (·.2))) ||
        (decide (numberOf (rs.map (·.1)) = numberOf (rs.map (·.2))) && c)) := by
  induction pairs generalizing s rs less c with
  | nil =>
    cases known
    exact R.ensures_pure low (by simp)
  | cons x pairs tail =>
    obtain ⟨x, y⟩ := x
    cases known with
    | @cons _ r _ rs first others =>
    obtain ⟨p, q⟩ := r
    obtain ⟨left, right⟩ := first
    unfold lessFrom
    refine ensures_bind (Gate.not_bit left) fun flipped s₁ g₁ flippedBit => ?_
    refine ensures_bind (Gate.and_bit flippedBit (R.mono right g₁)) fun here s₂ g₂ hereBit => ?_
    have early := g₁.trans g₂
    refine ensures_bind (Gate.iff_bit (R.mono left early) (R.mono right early))
      fun same s₃ g₃ sameBit => ?_
    refine ensures_bind (Gate.and_bit sameBit (R.mono low (early.trans g₃)))
      fun below s₄ g₄ belowBit => ?_
    refine ensures_bind (Gate.or_bit (R.mono hereBit (g₃.trans g₄)) belowBit)
      fun less s₅ g₅ lessBit => ?_
    have rest := tail (Pairs.mono others (((early.trans g₃).trans g₄).trans g₅)) lessBit
    rwa [less_step] at rest

/-- Addition with a carry. -/
theorem add_holds {carry : TermId} {c : Bool} (length : ps.length = qs.length)
    (left : R.Bits s a ps) (right : R.Bits s b qs) (low : R.Bit s carry c) :
    (add a b carry).Ensures s fun out after =>
      Holds R after out ps.length (numberOf ps + numberOf qs + c.toNat) := by
  have sum := ripple_holds (zip_bits left right) low
  rwa [List.map_fst_zip (Nat.le_of_eq length), List.map_snd_zip (Nat.le_of_eq length.symm),
    List.length_zip, ← length, Nat.min_self] at sum

/-- Subtraction: the complement of a number and one make its negation. -/
theorem sub_holds (length : ps.length = qs.length) (left : R.Bits s a ps)
    (right : R.Bits s b qs) :
    (sub a b).Ensures s fun out after =>
      Holds R after out ps.length (numberOf ps + (2 ^ ps.length - numberOf qs)) := by
  unfold sub
  refine ensures_bind (mapM_bits right fun now t p _ bit => Gate.not_bit bit)
    fun flipped middle grown known => ?_
  have sum := add_holds (by simpa using length) (left.mono grown) known (R.trueId middle)
  have complement := numberOf_map_not qs
  rw [← length] at complement
  have same : numberOf ps + numberOf (qs.map (!·)) + true.toNat =
      numberOf ps + (2 ^ ps.length - numberOf qs) := by
    rw [Bool.toNat_true]
    omega
  rwa [same] at sum

/-- Negation. -/
theorem neg_holds (known : R.Bits s a ps) :
    (neg a).Ensures s fun out after =>
      Holds R after out ps.length (2 ^ ps.length - numberOf ps) := by
  have length := known.length_eq
  have difference := sub_holds (by simpa using length) (zeros_bits a) known
  rwa [numberOf_replicate, List.length_replicate, Nat.zero_add, length] at difference

/-- Twice a number. -/
theorem double_holds (known : R.Bits s a ps) :
    Holds R s (double a) ps.length (2 * numberOf ps) := by
  refine ⟨(false :: ps).dropLast, ?_, by simp, ?_⟩
  · have whole : R.Bits s (Store.falseId :: a) (false :: ps) := .cons (R.falseId s) known
    rw [double, List.dropLast_eq_take, List.dropLast_eq_take, whole.length_eq]
    exact List.forall₂_take _ whole
  · rw [numberOf_dropLast, numberOf, Bool.toNat_false, Nat.zero_add]

/-- Addition of the multiples of a number by the digits of another. -/
theorem multiples_holds {sum : Bits} {rs : List Bool} (known : R.Bits s a ps)
    (digits : R.Bits s b qs) (start : R.Bits s sum rs) (length : rs.length = ps.length) :
    (multiples a b sum).Ensures s fun out after =>
      Holds R after out ps.length (numberOf rs + numberOf ps * numberOf qs) := by
  induction b generalizing s a ps qs sum rs with
  | nil =>
    cases digits
    refine ensures_pure ⟨rs, start, length, ?_⟩
    rw [numberOf, Nat.mul_zero, Nat.add_zero, ← length, Nat.mod_eq_of_lt (numberOf_lt rs)]
  | cons b others tail =>
    cases digits with
    | @cons _ q _ qs digit digits =>
    obtain ⟨twice, doubled, same, number⟩ := double_holds known
    -- What is added for this digit, as a number, and what the rest adds to it.
    have total : ∀ {rs' : List Bool} {out : Bits} {after : Store}, numberOf rs' % 2 ^ ps.length =
        (numberOf rs + numberOf ps * q.toNat) % 2 ^ ps.length →
        Holds R after out twice.length (numberOf rs' + numberOf twice * numberOf qs) →
        Holds R after out ps.length (numberOf rs + numberOf ps * numberOf (q :: qs)) := by
      intro rs' out after added result
      obtain ⟨bits, found, size, value⟩ := result
      refine ⟨bits, found, size.trans same, ?_⟩
      have whole : numberOf rs + numberOf ps * numberOf (q :: qs) =
          numberOf rs + numberOf ps * q.toNat + 2 * numberOf ps * numberOf qs := by
        rw [numberOf, Nat.mul_add, Nat.add_assoc, Nat.mul_left_comm, Nat.mul_assoc]
      rw [value, same, number, whole, ← Nat.mod_add_mod, added, add_mod_mul_mod]
    unfold multiples
    split_ifs with zero
    · refine (tail doubled digits start (by omega)).imp fun out after _ => total ?_
      rw [R.eq_false digit zero, Bool.toNat_false, Nat.mul_zero, Nat.add_zero]
    · refine ensures_bind (mapM_bits known fun now t p grown bit =>
        Gate.and_bit (R.mono digit grown) bit) fun summand s₁ g₁ summandBits => ?_
      refine ensures_bind (add_holds (by simpa using length) (start.mono g₁) summandBits
        (R.falseId s₁)) fun sum s₂ g₂ sumBits => ?_
      obtain ⟨bits, found, size, value⟩ := sumBits
      have early := g₁.trans g₂
      refine (tail (doubled.mono early) (Reading.Bits.mono digits early) found (by omega)).imp
        fun out after _ => total ?_
      rw [value, numberOf_map_and, length, Bool.toNat_false, Nat.add_zero, Nat.mod_mod]

/-- Multiplication. -/
theorem mul_holds (left : R.Bits s a ps) (right : R.Bits s b qs) :
    (mul a b).Ensures s fun out after =>
      Holds R after out ps.length (numberOf ps * numberOf qs) := by
  have product := multiples_holds left right (zeros_bits a) (by simpa using left.length_eq)
  rwa [numberOf_replicate, Nat.zero_add] at product

/-- Unsigned comparison. -/
theorem ult_bit (length : ps.length = qs.length) (left : R.Bits s a ps)
    (right : R.Bits s b qs) :
    (ult a b).Ensures s fun t after => R.Bit after t (decide (numberOf ps < numberOf qs)) := by
  have less := lessFrom_bit (zip_bits left right) (R.falseId s)
  rwa [List.map_fst_zip (Nat.le_of_eq length), List.map_snd_zip (Nat.le_of_eq length.symm),
    Bool.and_false, Bool.or_false] at less

/-- The most significant bit is negated: half of the range is added. -/
theorem flipSign_holds (known : R.Bits s a ps) :
    (flipSign a).Ensures s fun out after =>
      Holds R after out ps.length (numberOf ps + 2 ^ (ps.length - 1)) := by
  induction a generalizing s ps with
  | nil =>
    cases known
    exact ⟨[], .nil, rfl, by simp [numberOf]⟩
  | cons x rest tail =>
    cases known with
    | @cons _ p _ ps bit others =>
    cases others with
    | nil =>
      refine ensures_bind (Gate.not_bit bit) fun t after _ flipped => ?_
      refine ensures_pure ⟨[!p], .cons flipped .nil, rfl, ?_⟩
      cases p <;> rfl
    | @cons y q rest ps next others =>
      refine ensures_bind (tail (.cons next others)) fun out after grown result => ?_
      obtain ⟨bits, found, size, value⟩ := result
      refine ensures_pure ⟨p :: bits, .cons (R.mono bit grown) found, by simp [size], ?_⟩
      rw [numberOf, value, digit_add_mod]
      congr 1
      simp only [List.length_cons, Nat.add_sub_cancel, numberOf, Nat.pow_succ]
      omega

/-- Two lists of one length are equal if they agree at every position. -/
theorem all_zipWith_beq (length : ps.length = qs.length) :
    (ps.zipWith (· == ·) qs).all id = decide (ps = qs) := by
  induction ps generalizing qs with
  | nil => simp [(List.length_eq_zero_iff.mp length.symm)]
  | cons p rest tail =>
    cases qs with
    | nil => cases length
    | cons q others =>
      rw [List.zipWith_cons_cons, List.all_cons, tail (by simpa using length)]
      cases p <;> cases q <;> simp

/-- Equality. -/
theorem eq_bit (length : ps.length = qs.length) (left : R.Bits s a ps) (right : R.Bits s b qs) :
    (eq a b).Ensures s fun t after => R.Bit after t (decide (ps = qs)) := by
  refine ensures_bind (zipWith_bits left right fun now x y p q _ => Gate.iff_bit)
    fun out after _ known => ?_
  rw [← all_zipWith_beq length]
  exact Gate.all_bit known

end Circuit

section Words

variable {w v : ℕ}

/-- The bits of a bit-vector, the least significant first. -/
def digits (x : BitVec w) : List Bool := (List.range w).map x.getLsbD

/-- A bit-vector has as many bits as its width. -/
@[simp] theorem length_digits (x : BitVec w) : (digits x).length = w := by simp [digits]

/-- The bits of the number that a list of bits stands for. -/
theorem testBit_numberOf (ps : List Bool) (i : ℕ) : (numberOf ps).testBit i = ps.getD i false := by
  induction ps generalizing i with
  | nil => simp [numberOf]
  | cons p rest tail =>
    have digit : p.toNat < 2 := Bool.toNat_lt p
    cases i with
    | zero =>
      rw [numberOf, Nat.testBit_zero, List.getD_cons_zero]
      cases p <;> simp
    | succ i =>
      have half : (p.toNat + 2 * numberOf rest) / 2 = numberOf rest := by omega
      rw [numberOf, Nat.testBit_succ, half, tail, List.getD_cons_succ]

/-- The bits of a bit-vector stand for its value. -/
@[simp] theorem numberOf_digits (x : BitVec w) : numberOf (digits x) = x.toNat := by
  apply Nat.eq_of_testBit_eq
  intro i
  rw [testBit_numberOf, BitVec.testBit_toNat]
  by_cases inside : i < w
  · simp [digits, inside]
  · simp [digits, inside, BitVec.getLsbD_of_ge x i (Nat.le_of_not_lt inside)]

/-- Bit-vectors with the same bits are equal. -/
theorem digits_inj {x y : BitVec w} : digits x = digits y ↔ x = y := by
  refine ⟨fun same => BitVec.eq_of_toNat_eq ?_, fun same => same ▸ rfl⟩
  rw [← numberOf_digits, ← numberOf_digits, same]

/-- A list of bits is that of the bit-vector of its number. -/
theorem eq_digits {ps : List Bool} {x : BitVec w} (length : ps.length = w)
    (number : numberOf ps = x.toNat) : ps = digits x :=
  eq_of_numberOf_eq (by simpa using length) (by simpa using number)

/-- The bits of an operation position by position. -/
theorem zipWith_digits {f : Bool → Bool → Bool} {x y z : BitVec w}
    (each : ∀ i < w, f (x.getLsbD i) (y.getLsbD i) = z.getLsbD i) :
    (digits x).zipWith f (digits y) = digits z := by
  unfold digits
  rw [List.zipWith_map, List.zipWith_self]
  exact List.map_congr_left fun i inside => each i (List.mem_range.mp inside)

/-- The bits of a concatenation. -/
theorem digits_append (x : BitVec w) (y : BitVec v) : digits (x ++ y) = digits y ++ digits x := by
  unfold digits
  have positions : List.range (w + v) = List.range v ++ (List.range w).map (v + ·) := by
    rw [Nat.add_comm, List.range_add]
  rw [positions, List.map_append, List.map_map]
  congr 1
  · apply List.map_congr_left
    intro i inside
    rw [BitVec.getLsbD_append, if_pos (List.mem_range.mp inside)]
  · apply List.map_congr_left
    intro i _
    simp [BitVec.getLsbD_append]

/-- The bits of a part. -/
theorem digits_extractLsb (x : BitVec w) {high low : ℕ} (order : low ≤ high) (inside : high < w) :
    digits (x.extractLsb high low) = ((digits x).drop low).take (high + 1 - low) := by
  apply List.ext_getElem
  · simp only [length_digits, List.length_take, List.length_drop]
    omega
  · intro i left right
    simp only [length_digits] at left
    have below : i ≤ high - low := by omega
    simp [digits, BitVec.extractLsb, left]

/-- The order of two's complement values is that of the numbers shifted by half of the range. -/
theorem slt_iff (x y : BitVec w) : x.slt y = decide
    ((x.toNat + 2 ^ (w - 1)) % 2 ^ w < (y.toNat + 2 ^ (w - 1)) % 2 ^ w) := by
  cases w with
  | zero => simp [BitVec.slt, BitVec.of_length_zero]
  | succ n =>
    have big : 2 ^ (n + 1) = 2 * 2 ^ n := by rw [Nat.pow_succ, Nat.mul_comm]
    have left := x.isLt
    have right := y.isLt
    have shift : ∀ z : BitVec (n + 1), ((z.toNat + 2 ^ n) % 2 ^ (n + 1) : ℕ) =
        z.toInt + (2 ^ n : ℕ) := by
      intro z
      have bound := z.isLt
      rw [BitVec.toInt_eq_toNat_cond]
      by_cases small : 2 * z.toNat < 2 ^ (n + 1)
      · rw [if_pos small, Nat.mod_eq_of_lt (by omega)]
        exact Int.natCast_add ..
      · rw [if_neg small, Nat.mod_eq_sub_mod (by omega), Nat.mod_eq_of_lt (by omega)]
        omega
    rw [BitVec.slt, Nat.add_sub_cancel, decide_eq_decide, ← Int.ofNat_lt, shift, shift]
    omega

end Words

/-- Terms are the bits of a bit-vector. -/
abbrev Reading.Word {w : ℕ} (R : Reading) (s : Store) (terms : Stratagem.Bits)
    (x : BitVec w) : Prop :=
  R.Bits s terms (digits x)

namespace Circuit

variable {R : Reading} {s : Store} {a b : Bits} {w v : ℕ} {x y : BitVec w}

/-- Bits that stand for the value of a bit-vector are its bits. -/
theorem Holds.word {out : Bits} {value : ℕ} (known : Holds R s out w value)
    (same : value % 2 ^ w = x.toNat) : R.Word s out x := by
  obtain ⟨bits, found, length, number⟩ := known
  rw [same] at number
  rw [Reading.Word, ← eq_digits length number]
  exact found

/-- Literals. -/
theorem ofNat_word (value : ℕ) : R.Word s (ofNat value w) (BitVec.ofNat w value) := by
  have same : (List.range w).map value.testBit = digits (BitVec.ofNat w value) := by
    apply List.map_congr_left
    intro i inside
    rw [BitVec.getLsbD_ofNat, decide_eq_true (List.mem_range.mp inside), Bool.true_and]
  rw [Reading.Word, ← same]
  exact ofNat_bits value w

/-- Complement. -/
theorem not_word (known : R.Word s a x) :
    (a.mapM Gate.not).Ensures s fun out after => R.Word after out (~~~x) := by
  apply (mapM_bits known fun now t p _ => Gate.not_bit).imp
  intro out after _ bits
  have same : (digits x).map (!·) = digits (~~~x) := by
    unfold digits
    rw [List.map_map]
    apply List.map_congr_left
    intro i inside
    simp [List.mem_range.mp inside]
  rw [Reading.Word, ← same]
  exact bits

/-- An operation position by position. -/
theorem zipWith_word {gate : TermId → TermId → Terms TermId} {f : Bool → Bool → Bool}
    {z : BitVec w} (left : R.Word s a x) (right : R.Word s b y)
    (computes : ∀ now x y p q, s.Extends now → R.Bit now x p → R.Bit now y q →
      (gate x y).Ensures now fun u after => R.Bit after u (f p q))
    (each : ∀ i < w, f (x.getLsbD i) (y.getLsbD i) = z.getLsbD i) :
    (zipWith gate a b).Ensures s fun out after => R.Word after out z := by
  apply (zipWith_bits left right computes).imp
  intro out after _ bits
  rw [Reading.Word, ← zipWith_digits each]
  exact bits

/-- Conjunction. -/
theorem and_word (left : R.Word s a x) (right : R.Word s b y) :
    (zipWith Gate.and a b).Ensures s fun out after => R.Word after out (x &&& y) :=
  zipWith_word left right (fun _ _ _ _ _ _ => Gate.and_bit) (by simp)

/-- Disjunction. -/
theorem or_word (left : R.Word s a x) (right : R.Word s b y) :
    (zipWith Gate.or a b).Ensures s fun out after => R.Word after out (x ||| y) :=
  zipWith_word left right (fun _ _ _ _ _ _ => Gate.or_bit) (by simp)

/-- Difference. -/
theorem xor_word (left : R.Word s a x) (right : R.Word s b y) :
    (zipWith Gate.xor a b).Ensures s fun out after => R.Word after out (x ^^^ y) :=
  zipWith_word left right (fun _ _ _ _ _ _ => Gate.xor_bit) (by simp)

/-- Choice. -/
theorem mux_word {c : TermId} {r : Bool} (condition : R.Bit s c r) (left : R.Word s a x)
    (right : R.Word s b y) :
    (zipWith (Gate.mux c) a b).Ensures s fun out after =>
      R.Word after out (if r then x else y) := by
  apply zipWith_word left right fun now _ _ _ _ grown => Gate.mux_bit (R.mono condition grown)
  intro i _
  cases r <;> rfl

/-- Sum. -/
theorem add_word (left : R.Word s a x) (right : R.Word s b y) :
    (add a b Store.falseId).Ensures s fun out after => R.Word after out (x + y) := by
  apply (add_holds (by simp) left right (R.falseId s)).imp
  intro out after _ sum
  rw [length_digits] at sum
  apply sum.word
  simp

/-- Difference of numbers. -/
theorem sub_word (left : R.Word s a x) (right : R.Word s b y) :
    (sub a b).Ensures s fun out after => R.Word after out (x - y) := by
  apply (sub_holds (by simp) left right).imp
  intro out after _ difference
  rw [length_digits] at difference
  apply difference.word
  rw [numberOf_digits, numberOf_digits, BitVec.toNat_sub, Nat.add_comm]

/-- Negation of a number. -/
theorem neg_word (known : R.Word s a x) :
    (neg a).Ensures s fun out after => R.Word after out (-x) := by
  apply (neg_holds known).imp
  intro out after _ negation
  rw [length_digits] at negation
  apply negation.word
  rw [numberOf_digits, BitVec.toNat_neg]

/-- Product. -/
theorem mul_word (left : R.Word s a x) (right : R.Word s b y) :
    (mul a b).Ensures s fun out after => R.Word after out (x * y) := by
  apply (mul_holds left right).imp
  intro out after _ product
  rw [length_digits] at product
  apply product.word
  rw [numberOf_digits, numberOf_digits, BitVec.toNat_mul]

/-- Concatenation. -/
theorem append_word {z : BitVec v} (high : R.Word s a x) (low : R.Word s b z) :
    R.Word s (b ++ a) (x ++ z) := by
  rw [Reading.Word, digits_append]
  exact List.rel_append low high

/-- Part of a vector. -/
theorem extract_word {high low : ℕ} (order : low ≤ high) (inside : high < w)
    (known : R.Word s a x) :
    R.Word s ((a.drop low).take (high + 1 - low)) (x.extractLsb high low) := by
  rw [Reading.Word, digits_extractLsb x order inside]
  exact List.forall₂_take _ (List.forall₂_drop _ known)

/-- Equality. -/
theorem eq_word (left : R.Word s a x) (right : R.Word s b y) :
    (eq a b).Ensures s fun t after => R.Bit after t (decide (x = y)) := by
  have compared := eq_bit (by simp) left right
  simpa only [digits_inj] using compared

/-- Unsigned comparison. -/
theorem ult_word (left : R.Word s a x) (right : R.Word s b y) :
    (ult a b).Ensures s fun t after => R.Bit after t (x.ult y) := by
  have compared := ult_bit (by simp) left right
  rwa [numberOf_digits, numberOf_digits] at compared

/-- Signed comparison. -/
theorem slt_word (left : R.Word s a x) (right : R.Word s b y) :
    (slt a b).Ensures s fun t after => R.Bit after t (x.slt y) := by
  unfold slt
  apply ensures_bind (flipSign_holds left)
  intro first s₁ grown flipped
  obtain ⟨ps, firstBits, firstLength, firstNumber⟩ := flipped
  apply ensures_bind (flipSign_holds (Reading.Bits.mono right grown))
  intro second s₂ more flipped
  obtain ⟨qs, secondBits, secondLength, secondNumber⟩ := flipped
  rw [length_digits] at firstLength firstNumber secondLength secondNumber
  have compared := ult_bit (firstLength.trans secondLength.symm)
    (Reading.Bits.mono firstBits more) secondBits
  rwa [firstNumber, secondNumber, numberOf_digits, numberOf_digits, ← slt_iff] at compared

/-- Differences of a vector from others. -/
theorem differences_bits {vectors : List Bits} {ys : List (BitVec w)} (first : R.Word s a x)
    (known : List.Forall₂ (R.Word s) vectors ys) :
    (differences a vectors).Ensures s fun out after =>
      R.Bits after out (ys.map fun y => decide (x ≠ y)) := by
  have each : (differences a vectors).Ensures s fun out after =>
      List.Forall₂ (fun u y => R.Bit after u (decide (x ≠ y))) out ys := by
    apply ensures_mapM_forall₂ (K := fun s b y => R.Word s b y)
      (F := fun s u y => R.Bit s u (decide (x ≠ y)))
      (fun _ _ _ _ more word => Reading.Bits.mono word more) (fun _ _ _ _ more bit => R.mono bit more) known
    intro b y now grown second
    apply ensures_bind (eq_word (Reading.Bits.mono first grown) second)
    intro t after _ same
    rw [decide_not]
    exact Gate.not_bit same
  apply each.imp
  intro out after _ bits
  exact List.forall₂_map_right_iff.mpr bits

/-- Pairwise differences. -/
theorem pairwise_bits {vectors : List Bits} {xs : List (BitVec w)}
    (known : List.Forall₂ (R.Word s) vectors xs) :
    (pairwise vectors).Ensures s fun out after =>
      ∃ ps, R.Bits after out ps ∧ ps.all id = decide (xs.Pairwise (· ≠ ·)) := by
  induction vectors generalizing s xs with
  | nil =>
    cases known
    exact ⟨[], .nil, by simp⟩
  | cons a vectors tail =>
    cases known with
    | @cons _ x _ xs first others =>
    apply ensures_bind (differences_bits first others)
    intro here middle grown bits
    apply ensures_bind (tail (others.imp fun _ _ word => Reading.Bits.mono word grown))
    intro rest after more later
    obtain ⟨ps, restBits, same⟩ := later
    apply ensures_pure
    refine ⟨_, List.rel_append (Reading.Bits.mono bits more) restBits, ?_⟩
    rw [List.all_append, same, Bool.eq_iff_iff]
    simp

/-- Pairwise difference. -/
theorem distinct_bit {vectors : List Bits} {xs : List (BitVec w)}
    (known : List.Forall₂ (R.Word s) vectors xs) :
    (distinct vectors).Ensures s fun t after =>
      R.Bit after t (decide (xs.Pairwise (· ≠ ·))) := by
  apply ensures_bind (pairwise_bits known)
  intro out after _ differ
  obtain ⟨ps, bits, same⟩ := differ
  exact same ▸ Gate.all_bit bits

end Circuit
end Stratagem
