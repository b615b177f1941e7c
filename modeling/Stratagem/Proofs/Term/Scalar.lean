import Stratagem.Proofs.Term.Building
import Stratagem.Proofs.Term.Traversal

/-!
# Values of terms without quantifiers

Truth values, integers, rationals and bit-vectors are the values that literals stand for. The value
of a term over constants with such values is computed from its leaves up, by the operations that
belong to its heads: Euclidean division of integers, exact arithmetic of rationals and the
operations of the library's bit-vectors. An application that is not well-sorted has no value, nor
has a division by zero; a well-sorted term in which no divisor is zero has a value of its sort.
-/
namespace Stratagem

/-- An operation that has results on all members of a list. -/
theorem mapM_eq_some_iff {α β : Type} {f : α → Option β} {as : List α} {bs : List β} :
    as.mapM f = some bs ↔ List.Forall₂ (fun a b => f a = some b) as bs := by
  induction as generalizing bs with
  | nil =>
    rw [List.mapM_nil, List.forall₂_nil_left_iff]
    exact ⟨fun found => (Option.some.inj found).symm, fun none => none ▸ rfl⟩
  | cons a rest tail =>
    rw [List.mapM_cons, List.forall₂_cons_left_iff]
    cases f a with
    | none => simp
    | some b => simp [Option.bind_eq_some_iff, tail, @eq_comm _ bs]

/-- A value that a literal stands for. -/
inductive Scalar where
  /-- A truth value. -/
  | truth (p : Bool)
  /-- An integer. -/
  | int (n : ℤ)
  /-- A rational number of the real sort. -/
  | real (r : ℚ)
  /-- A bit-vector. -/
  | word (width : ℕ) (x : BitVec width)
  deriving DecidableEq, Inhabited

namespace Scalar

/-- The sort of a value. -/
def sort : Scalar → TermSort
  | truth _ => .bool
  | int _ => .int
  | real _ => .real
  | word width _ => .bitVec width

/-- The literal that stands for a value. -/
def literal : Scalar → Node
  | truth p => ⟨.bool p, [], .bool⟩
  | int n => ⟨.int n, [], .int⟩
  | real r => ⟨.real r, [], .real⟩
  | word width x => ⟨.bitVec x.toNat width, [], .bitVec width⟩

/-- Whether a value is zero. -/
def isZero : Scalar → Bool
  | truth _ => false
  | int n => n = 0
  | real r => r = 0
  | word _ x => x.toNat = 0

/-- A truth value as such. -/
def truth? : Scalar → Option Bool
  | truth p => some p
  | _ => none

/-- An integer as such. -/
def int? : Scalar → Option ℤ
  | int n => some n
  | _ => none

/-- A rational number of the real sort as such. -/
def real? : Scalar → Option ℚ
  | real r => some r
  | _ => none

/-- The value of an application without arguments. -/
def fixed (v : Scalar) : List Scalar → Option Scalar
  | [] => some v
  | _ => none

/-- An operation on two truth values. -/
def truths (f : Bool → Bool → Bool) : List Scalar → Option Scalar
  | [truth p, truth q] => some (truth (f p q))
  | _ => none

/-- An operation on two integers, the second of which is not zero. -/
def divide (f : ℤ → ℤ → ℤ) : List Scalar → Option Scalar
  | [int a, int b] => if b = 0 then none else some (int (f a b))
  | _ => none

/-- A predicate on the order of two numbers of one sort. -/
def order (f : Ordering → Bool) : List Scalar → Option Scalar
  | [int a, int b] => some (truth (f (compare a b)))
  | [real a, real b] => some (truth (f (compare a b)))
  | _ => none

/-- An operation on at least two numbers of one sort. -/
def gather (ints : List ℤ → ℤ) (reals : List ℚ → ℚ) (vs : List Scalar) : Option Scalar :=
  if 2 ≤ vs.length then
    ((vs.mapM int?).map fun ns => int (ints ns)).or ((vs.mapM real?).map fun rs => real (reals rs))
  else none

/-- An operation on at least two truth values. -/
def join (f : List Bool → Bool) (vs : List Scalar) : Option Scalar :=
  if 2 ≤ vs.length then (vs.mapM truth?).map fun ps => truth (f ps) else none

/-- An operation on one bit-vector. -/
def map (f : ∀ {w : ℕ}, BitVec w → BitVec w) : List Scalar → Option Scalar
  | [word w x] => some (word w (f x))
  | _ => none

/-- An operation on two bit-vectors of one width. -/
def combine (f : ∀ {w : ℕ}, BitVec w → BitVec w → BitVec w) : List Scalar → Option Scalar
  | [word w x, word v y] => if same : v = w then some (word w (f x (y.cast same))) else none
  | _ => none

/-- A predicate on two bit-vectors of one width. -/
def relate (f : ∀ {w : ℕ}, BitVec w → BitVec w → Bool) : List Scalar → Option Scalar
  | [word w x, word v y] => if same : v = w then some (truth (f x (y.cast same))) else none
  | _ => none

/-- The sort of the literal is that of the value. -/
@[simp] theorem literal_sort (v : Scalar) : v.literal.sort = v.sort := by cases v <;> rfl

/-- A literal has no arguments. -/
@[simp] theorem literal_args (v : Scalar) : v.literal.args = [] := by cases v <;> rfl

/-- Literals are heads that are written without parentheses. -/
theorem isAtom_literal (v : Scalar) : v.literal.op.isAtom = true := by cases v <;> rfl

/-- Literals are values. -/
theorem isValue_literal (v : Scalar) : v.literal.op.isValue = true := by cases v <;> rfl

/-- A literal stands for one value. -/
theorem literal_injective : Function.Injective literal := by
  intro v w same
  cases v <;> cases w <;> simp_all [literal]
  next width x other y =>
    obtain rfl : width = other := same.2
    exact heq_of_eq (BitVec.eq_of_toNat_eq same.1)

/-- A value of the boolean sort is a truth value. -/
theorem exists_truth {v : Scalar} (sort : v.sort = .bool) : ∃ p, v = truth p := by
  cases v <;> simp_all [Scalar.sort]

/-- A value of the integer sort is an integer. -/
theorem exists_int {v : Scalar} (sort : v.sort = .int) : ∃ n, v = int n := by
  cases v <;> simp_all [Scalar.sort]

/-- A value of the real sort is a rational number. -/
theorem exists_real {v : Scalar} (sort : v.sort = .real) : ∃ r, v = real r := by
  cases v <;> simp_all [Scalar.sort]

/-- A value of a bit-vector sort is a bit-vector of that width. -/
theorem exists_word {v : Scalar} {w : ℕ} (sort : v.sort = .bitVec w) :
    ∃ x : BitVec w, v = word w x := by
  cases v with
  | word width x =>
    obtain rfl : width = w := by simpa [Scalar.sort] using sort
    exact ⟨x, rfl⟩
  | _ => cases sort

/-- Values that are all of one kind, read off one by one. -/
theorem mapM_eq_some_iff_map {α : Type} {read : Scalar → Option α} {write : α → Scalar}
    (inverse : ∀ v a, read v = some a ↔ v = write a) {vs : List Scalar} {as : List α} :
    vs.mapM read = some as ↔ vs = as.map write := by
  simp only [mapM_eq_some_iff, inverse]
  rw [← List.forall₂_eq_eq_eq, List.forall₂_map_right_iff]

/-- Truth values read off. -/
theorem mapM_truth?_eq_some {vs : List Scalar} {ps : List Bool} :
    vs.mapM truth? = some ps ↔ vs = ps.map truth :=
  mapM_eq_some_iff_map fun v p => by cases v <;> simp [truth?]

/-- Integers read off. -/
theorem mapM_int?_eq_some {vs : List Scalar} {ns : List ℤ} :
    vs.mapM int? = some ns ↔ vs = ns.map int :=
  mapM_eq_some_iff_map fun v n => by cases v <;> simp [int?]

/-- Rational numbers read off. -/
theorem mapM_real?_eq_some {vs : List Scalar} {rs : List ℚ} :
    vs.mapM real? = some rs ↔ vs = rs.map real :=
  mapM_eq_some_iff_map fun v r => by cases v <;> simp [real?]

section Inversion

variable {vs : List Scalar} {v : Scalar}

/-- An application without arguments has none. -/
theorem fixed_eq_some {w : Scalar} (found : fixed w vs = some v) : vs = [] ∧ v = w := by
  unfold fixed at found
  split at found <;> simp_all

/-- Only two truth values are put together. -/
theorem truths_eq_some {f : Bool → Bool → Bool} (found : truths f vs = some v) :
    ∃ p q, vs = [truth p, truth q] ∧ v = truth (f p q) := by
  unfold truths at found
  split at found
  · exact ⟨_, _, rfl, (Option.some.inj found).symm⟩
  · cases found

/-- Only an integer other than zero divides another one. -/
theorem divide_eq_some {f : ℤ → ℤ → ℤ} (found : divide f vs = some v) :
    ∃ a b, vs = [int a, int b] ∧ b ≠ 0 ∧ v = int (f a b) := by
  unfold divide at found
  split at found <;> simp_all

/-- Only numbers of one sort have an order. -/
theorem order_eq_some {f : Ordering → Bool} (found : order f vs = some v) :
    (∃ a b, vs = [int a, int b] ∧ v = truth (f (compare a b))) ∨
      ∃ a b, vs = [real a, real b] ∧ v = truth (f (compare a b)) := by
  unfold order at found
  split at found <;> simp_all

/-- Numbers of one sort are put together as integers or as rationals. -/
theorem gather_eq_some {f : List ℤ → ℤ} {g : List ℚ → ℚ} (found : gather f g vs = some v) :
    2 ≤ vs.length ∧ ((∃ ns : List ℤ, vs = ns.map int ∧ v = int (f ns)) ∨
      ∃ rs : List ℚ, vs = rs.map real ∧ v = real (g rs)) := by
  obtain ⟨two, found⟩ := Option.ite_none_right_eq_some.mp found
  refine ⟨two, ?_⟩
  cases ints : vs.mapM int? with
  | some ns =>
    rw [ints] at found
    exact .inl ⟨ns, mapM_int?_eq_some.mp ints, (Option.some.inj found).symm⟩
  | none =>
    rw [ints] at found
    obtain ⟨rs, reals, same⟩ := Option.map_eq_some_iff.mp found
    exact .inr ⟨rs, mapM_real?_eq_some.mp reals, same.symm⟩

/-- Only truth values are joined. -/
theorem join_eq_some {f : List Bool → Bool} (found : join f vs = some v) :
    2 ≤ vs.length ∧ ∃ ps : List Bool, vs = ps.map truth ∧ v = truth (f ps) := by
  obtain ⟨two, found⟩ := Option.ite_none_right_eq_some.mp found
  obtain ⟨ps, truths, same⟩ := Option.map_eq_some_iff.mp found
  exact ⟨two, ps, mapM_truth?_eq_some.mp truths, same.symm⟩

/-- Only a bit-vector is changed. -/
theorem map_eq_some {f : ∀ {w : ℕ}, BitVec w → BitVec w} (found : map f vs = some v) :
    ∃ (n : ℕ) (x : BitVec n), vs = [word n x] ∧ v = word n (f x) := by
  unfold map at found
  split at found
  · exact ⟨_, _, rfl, (Option.some.inj found).symm⟩
  · cases found

/-- Only bit-vectors of one width are combined. -/
theorem combine_eq_some {f : ∀ {w : ℕ}, BitVec w → BitVec w → BitVec w}
    (found : combine f vs = some v) :
    ∃ (n : ℕ) (x y : BitVec n), vs = [word n x, word n y] ∧ v = word n (f x y) := by
  unfold combine at found
  split at found
  · split at found
    · next same =>
      subst same
      exact ⟨_, _, _, rfl, (Option.some.inj found).symm⟩
    · cases found
  · cases found

/-- Only bit-vectors of one width are compared. -/
theorem relate_eq_some {f : ∀ {w : ℕ}, BitVec w → BitVec w → Bool}
    (found : relate f vs = some v) :
    ∃ (n : ℕ) (x y : BitVec n), vs = [word n x, word n y] ∧ v = truth (f x y) := by
  unfold relate at found
  split at found
  · split at found
    · next same =>
      subst same
      exact ⟨_, _, _, rfl, (Option.some.inj found).symm⟩
    · cases found
  · cases found

end Inversion

end Scalar

/-- The default value of a sort; sorts without literals have none. -/
def TermSort.default? : TermSort → Option Scalar
  | bool => some (.truth false)
  | int => some (.int 0)
  | real => some (.real 0)
  | bitVec width => some (.word width 0)
  | _ => none

namespace Op

/-- Whether this is an operator that divides by its second argument. -/
def divides : Op → Bool
  | div | intDiv | mod | rem => true
  | _ => false

/-- The value of an application, from the values of its arguments; none if it is not well-sorted or
divides by zero. -/
def operate (op : Op) (vs : List Scalar) : Option Scalar :=
  match op with
  | bool p => Scalar.fixed (.truth p) vs
  | int n => Scalar.fixed (.int n) vs
  | real r => Scalar.fixed (.real r) vs
  | bitVec value width =>
    if fits : value < 2 ^ width then Scalar.fixed (.word width (.ofNatLT value fits)) vs else none
  | not => match vs with
    | [.truth p] => some (.truth !p)
    | _ => none
  | and => Scalar.join (·.all id) vs
  | or => Scalar.join (·.any id) vs
  | implies => Scalar.truths (fun p q => !p || q) vs
  | xor => Scalar.truths (· ^^ ·) vs
  | ite => match vs with
    | [.truth p, v, w] => if v.sort = w.sort then some (if p then v else w) else none
    | _ => none
  | eq => match vs with
    | [v, w] => if v.sort = w.sort then some (.truth (v = w)) else none
    | _ => none
  | distinct =>
    if ∀ v ∈ vs, ∀ w ∈ vs, v.sort = w.sort then some (.truth vs.Nodup) else none
  | neg => match vs with
    | [.int a] => some (.int (-a))
    | [.real a] => some (.real (-a))
    | _ => none
  | sub => match vs with
    | [.int a, .int b] => some (.int (a - b))
    | [.real a, .real b] => some (.real (a - b))
    | _ => none
  | add => Scalar.gather List.sum List.sum vs
  | mul => Scalar.gather List.prod List.prod vs
  | div => match vs with
    | [.real a, .real b] => if b = 0 then none else some (.real (a / b))
    | _ => none
  | intDiv => Scalar.divide (· / ·) vs
  | mod => Scalar.divide (· % ·) vs
  | rem => Scalar.divide (fun a b => if b < 0 then -(a % b) else a % b) vs
  | le => Scalar.order Ordering.isLE vs
  | lt => Scalar.order Ordering.isLT vs
  | ge => Scalar.order Ordering.isGE vs
  | gt => Scalar.order Ordering.isGT vs
  | toReal => match vs with
    | [.int n] => some (.real n)
    | _ => none
  | toInt => match vs with
    | [.real r] => some (.int ⌊r⌋)
    | _ => none
  | isInt => match vs with
    | [.real r] => some (.truth (r.den = 1))
    | _ => none
  | bvNot => Scalar.map (~~~·) vs
  | bvNeg => Scalar.map (-·) vs
  | bvAnd => Scalar.combine (· &&& ·) vs
  | bvOr => Scalar.combine (· ||| ·) vs
  | bvXor => Scalar.combine (· ^^^ ·) vs
  | bvAdd => Scalar.combine (· + ·) vs
  | bvSub => Scalar.combine (· - ·) vs
  | bvMul => Scalar.combine (· * ·) vs
  | bvConcat => match vs with
    | [.word w x, .word v y] => some (.word (w + v) (x ++ y))
    | _ => none
  | bvExtract high low => match vs with
    | [.word w x] =>
      if low ≤ high ∧ high < w then some (.word (high - low + 1) (x.extractLsb high low)) else none
    | _ => none
  | bvUlt => Scalar.relate BitVec.ult vs
  | bvUle => Scalar.relate BitVec.ule vs
  | bvSlt => Scalar.relate BitVec.slt vs
  | bvSle => Scalar.relate BitVec.sle vs
  | _ => none

/-- The sort of a well-sorted application, from the sorts of its arguments; others have none. -/
def rank (op : Op) (sorts : List TermSort) : Option TermSort :=
  match op with
  | bool _ => given [] .bool
  | int _ => given [] .int
  | real _ => given [] .real
  | bitVec value width => if value < 2 ^ width then given [] (.bitVec width) else none
  | not => given [.bool] .bool
  | and | or => several .bool
  | implies | xor => given [.bool, .bool] .bool
  | ite => match sorts with
    | [.bool, a, b] => if a = b then some a else none
    | _ => none
  | eq => match sorts with
    | [a, b] => if a = b then some .bool else none
    | _ => none
  | distinct => if ∀ a ∈ sorts, ∀ b ∈ sorts, a = b then some .bool else none
  | neg => (given [.int] .int).or (given [.real] .real)
  | sub => (given [.int, .int] .int).or (given [.real, .real] .real)
  | add | mul => (several .int).or (several .real)
  | div => given [.real, .real] .real
  | intDiv | mod | rem => given [.int, .int] .int
  | le | lt | ge | gt => (given [.int, .int] .bool).or (given [.real, .real] .bool)
  | toReal => given [.int] .real
  | toInt => given [.real] .int
  | isInt => given [.real] .bool
  | bvNot | bvNeg => match sorts with
    | [.bitVec w] => some (.bitVec w)
    | _ => none
  | bvAnd | bvOr | bvXor | bvAdd | bvSub | bvMul => match sorts with
    | [.bitVec w, .bitVec v] => if v = w then some (.bitVec w) else none
    | _ => none
  | bvConcat => match sorts with
    | [.bitVec w, .bitVec v] => some (.bitVec (w + v))
    | _ => none
  | bvExtract high low => match sorts with
    | [.bitVec w] => if low ≤ high ∧ high < w then some (.bitVec (high - low + 1)) else none
    | _ => none
  | bvUlt | bvUle | bvSlt | bvSle => match sorts with
    | [.bitVec w, .bitVec v] => if v = w then some .bool else none
    | _ => none
  | _ => none
where
  /-- A sort, if the arguments have given sorts. -/
  given (arguments : List TermSort) (result : TermSort) : Option TermSort :=
    if sorts = arguments then some result else none
  /-- A sort, if there are at least two arguments and all are of that sort. -/
  several (sort : TermSort) : Option TermSort :=
    if 2 ≤ sorts.length ∧ ∀ a ∈ sorts, a = sort then some sort else none

section Ranks

open Scalar

variable {vs : List Scalar} {a b c sort : TermSort}

/-- Values of one sort, read off from their sorts. -/
theorem exists_map_of_sorts {α : Type} {write : α → Scalar}
    (every : ∀ v : Scalar, v.sort = sort → ∃ x : α, v = write x)
    (same : ∀ σ ∈ vs.map Scalar.sort, σ = sort) : ∃ xs : List α, vs = xs.map write := by
  induction vs with
  | nil => exact ⟨[], rfl⟩
  | cons v rest tail =>
    obtain ⟨here, later⟩ := List.forall_mem_cons.mp same
    obtain ⟨x, rfl⟩ := every v here
    obtain ⟨xs, rfl⟩ := tail later
    exact ⟨x :: xs, rfl⟩

/-- The value of one sort. -/
theorem sorts_one (sorts : vs.map Scalar.sort = [a]) : ∃ v, vs = [v] ∧ v.sort = a := by
  simpa [List.map_eq_cons_iff] using sorts

/-- The values of two sorts. -/
theorem sorts_two (sorts : vs.map Scalar.sort = [a, b]) :
    ∃ v w, vs = [v, w] ∧ v.sort = a ∧ w.sort = b := by
  obtain ⟨v, rest, rfl, first, tail⟩ := List.map_eq_cons_iff.mp sorts
  obtain ⟨w, rfl, second⟩ := sorts_one tail
  exact ⟨v, w, rfl, first, second⟩

/-- The values of three sorts. -/
theorem sorts_three (sorts : vs.map Scalar.sort = [a, b, c]) :
    ∃ u v w, vs = [u, v, w] ∧ u.sort = a ∧ v.sort = b ∧ w.sort = c := by
  obtain ⟨u, rest, rfl, first, tail⟩ := List.map_eq_cons_iff.mp sorts
  obtain ⟨v, w, rfl, second, third⟩ := sorts_two tail
  exact ⟨u, v, w, rfl, first, second, third⟩

/-- Given sorts are those of the arguments. -/
theorem sorts_of_given {sorts arguments : List TermSort}
    (found : rank.given sorts arguments a = some sort) : sorts = arguments ∧ a = sort := by
  simpa [rank.given] using found

/-- Several arguments have one sort. -/
theorem sorts_of_several {sorts : List TermSort} (found : rank.several sorts a = some sort) :
    2 ≤ sorts.length ∧ (∀ b ∈ sorts, b = a) ∧ a = sort := by
  simpa [rank.several, and_assoc] using found

/-- Truth values are joined. -/
theorem join_of_sorts {f : List Bool → Bool}
    (ranked : rank.several (vs.map Scalar.sort) .bool = some sort) :
    ∃ v, join f vs = some v ∧ v.sort = sort := by
  obtain ⟨two, every, rfl⟩ := sorts_of_several ranked
  obtain ⟨ps, rfl⟩ := exists_map_of_sorts (fun _ => exists_truth) every
  rw [List.length_map] at two
  exact ⟨_, (if_pos two).trans (congrArg _ (mapM_truth?_eq_some.mpr rfl)), rfl⟩

/-- Numbers of one sort are put together. -/
theorem gather_of_sorts {f : List ℤ → ℤ} {g : List ℚ → ℚ}
    (ranked : (rank.several (vs.map Scalar.sort) .int).or
      (rank.several (vs.map Scalar.sort) .real) = some sort) :
    ∃ v, gather f g vs = some v ∧ v.sort = sort := by
  rcases Option.or_eq_some_iff.mp ranked with ints | ⟨_, reals⟩
  · obtain ⟨two, every, rfl⟩ := sorts_of_several ints
    obtain ⟨ns, rfl⟩ := exists_map_of_sorts (fun _ => exists_int) every
    rw [List.length_map] at two
    refine ⟨.int (f ns), ?_, rfl⟩
    rw [gather, if_pos two, mapM_int?_eq_some.mpr rfl]
    rfl
  · obtain ⟨two, every, rfl⟩ := sorts_of_several reals
    obtain ⟨rs, rfl⟩ := exists_map_of_sorts (fun _ => exists_real) every
    rw [List.length_map] at two
    have other : (rs.map Scalar.real).mapM int? = none := by
      cases rs with
      | nil => cases two
      | cons r rest => rfl
    refine ⟨.real (g rs), ?_, rfl⟩
    rw [gather, if_pos two, other, mapM_real?_eq_some.mpr rfl]
    rfl

/-- A well-sorted application has a value of its sort, if it does not divide by zero. -/
theorem operate_of_rank {op : Op} (ranked : op.rank (vs.map Scalar.sort) = some sort)
    (nonzero : op.divides → ∀ v w, vs = [v, w] → w.isZero = false) :
    ∃ v, op.operate vs = some v ∧ v.sort = sort := by
  generalize sorts : vs.map Scalar.sort = sorted at ranked
  cases op
  case bool | int | real =>
    obtain ⟨rfl, rfl⟩ := sorts_of_given ranked
    obtain rfl := List.map_eq_nil_iff.mp sorts
    exact ⟨_, rfl, rfl⟩
  case bitVec =>
    obtain ⟨fits, ranked⟩ := Option.ite_none_right_eq_some.mp ranked
    obtain ⟨rfl, rfl⟩ := sorts_of_given ranked
    obtain rfl := List.map_eq_nil_iff.mp sorts
    exact ⟨_, dif_pos fits, rfl⟩
  case not =>
    obtain ⟨rfl, rfl⟩ := sorts_of_given ranked
    obtain ⟨v, rfl, first⟩ := sorts_one sorts
    obtain ⟨p, rfl⟩ := exists_truth first
    exact ⟨_, rfl, rfl⟩
  case and | or =>
    subst sorts
    exact join_of_sorts ranked
  case implies | xor =>
    obtain ⟨rfl, rfl⟩ := sorts_of_given ranked
    obtain ⟨v, w, rfl, first, second⟩ := sorts_two sorts
    obtain ⟨p, rfl⟩ := exists_truth first
    obtain ⟨q, rfl⟩ := exists_truth second
    exact ⟨_, rfl, rfl⟩
  case ite =>
    unfold rank at ranked
    dsimp only at ranked
    split at ranked
    · obtain ⟨u, v, w, rfl, first, rfl, rfl⟩ := sorts_three sorts
      obtain ⟨p, rfl⟩ := exists_truth first
      obtain ⟨same, result⟩ := Option.ite_none_right_eq_some.mp ranked
      refine ⟨_, if_pos same, ?_⟩
      rw [← Option.some.inj result]
      cases p with
      | true => rfl
      | false => exact same.symm
    · cases ranked
  case eq =>
    unfold rank at ranked
    dsimp only at ranked
    split at ranked
    · obtain ⟨v, w, rfl, rfl, rfl⟩ := sorts_two sorts
      obtain ⟨same, result⟩ := Option.ite_none_right_eq_some.mp ranked
      exact ⟨_, if_pos same, Option.some.inj result⟩
    · cases ranked
  case distinct =>
    subst sorts
    obtain ⟨same, result⟩ := Option.ite_none_right_eq_some.mp ranked
    have every : ∀ v ∈ vs, ∀ w ∈ vs, v.sort = w.sort := fun v first w second =>
      same _ (List.mem_map_of_mem first) _ (List.mem_map_of_mem second)
    exact ⟨_, if_pos every, Option.some.inj result⟩
  case neg =>
    rcases Option.or_eq_some_iff.mp ranked with ints | ⟨_, reals⟩
    · obtain ⟨rfl, rfl⟩ := sorts_of_given ints
      obtain ⟨v, rfl, first⟩ := sorts_one sorts
      obtain ⟨n, rfl⟩ := exists_int first
      exact ⟨_, rfl, rfl⟩
    · obtain ⟨rfl, rfl⟩ := sorts_of_given reals
      obtain ⟨v, rfl, first⟩ := sorts_one sorts
      obtain ⟨r, rfl⟩ := exists_real first
      exact ⟨_, rfl, rfl⟩
  case sub | le | lt | ge | gt =>
    rcases Option.or_eq_some_iff.mp ranked with ints | ⟨_, reals⟩
    · obtain ⟨rfl, rfl⟩ := sorts_of_given ints
      obtain ⟨v, w, rfl, first, second⟩ := sorts_two sorts
      obtain ⟨n, rfl⟩ := exists_int first
      obtain ⟨k, rfl⟩ := exists_int second
      exact ⟨_, rfl, rfl⟩
    · obtain ⟨rfl, rfl⟩ := sorts_of_given reals
      obtain ⟨v, w, rfl, first, second⟩ := sorts_two sorts
      obtain ⟨r, rfl⟩ := exists_real first
      obtain ⟨q, rfl⟩ := exists_real second
      exact ⟨_, rfl, rfl⟩
  case add | mul =>
    subst sorts
    exact gather_of_sorts ranked
  case div =>
    obtain ⟨rfl, rfl⟩ := sorts_of_given ranked
    obtain ⟨v, w, rfl, first, second⟩ := sorts_two sorts
    obtain ⟨r, rfl⟩ := exists_real first
    obtain ⟨q, rfl⟩ := exists_real second
    have divisor : q ≠ 0 := by simpa [isZero] using nonzero rfl _ _ rfl
    exact ⟨_, if_neg divisor, rfl⟩
  case intDiv | mod | rem =>
    obtain ⟨rfl, rfl⟩ := sorts_of_given ranked
    obtain ⟨v, w, rfl, first, second⟩ := sorts_two sorts
    obtain ⟨n, rfl⟩ := exists_int first
    obtain ⟨k, rfl⟩ := exists_int second
    have divisor : k ≠ 0 := by simpa [isZero] using nonzero rfl _ _ rfl
    exact ⟨_, if_neg divisor, rfl⟩
  case toReal =>
    obtain ⟨rfl, rfl⟩ := sorts_of_given ranked
    obtain ⟨v, rfl, first⟩ := sorts_one sorts
    obtain ⟨n, rfl⟩ := exists_int first
    exact ⟨_, rfl, rfl⟩
  case toInt | isInt =>
    obtain ⟨rfl, rfl⟩ := sorts_of_given ranked
    obtain ⟨v, rfl, first⟩ := sorts_one sorts
    obtain ⟨r, rfl⟩ := exists_real first
    exact ⟨_, rfl, rfl⟩
  case bvNot | bvNeg =>
    unfold rank at ranked
    dsimp only at ranked
    split at ranked
    · obtain ⟨v, rfl, first⟩ := sorts_one sorts
      obtain ⟨x, rfl⟩ := exists_word first
      exact ⟨_, rfl, Option.some.inj ranked⟩
    · cases ranked
  case bvAnd | bvOr | bvXor | bvAdd | bvSub | bvMul | bvUlt | bvUle | bvSlt | bvSle =>
    unfold rank at ranked
    dsimp only at ranked
    split at ranked
    · obtain ⟨v, w, rfl, first, second⟩ := sorts_two sorts
      obtain ⟨x, rfl⟩ := exists_word first
      obtain ⟨y, rfl⟩ := exists_word second
      obtain ⟨same, result⟩ := Option.ite_none_right_eq_some.mp ranked
      exact ⟨_, dif_pos same, Option.some.inj result⟩
    · cases ranked
  case bvConcat =>
    unfold rank at ranked
    dsimp only at ranked
    split at ranked
    · obtain ⟨v, w, rfl, first, second⟩ := sorts_two sorts
      obtain ⟨x, rfl⟩ := exists_word first
      obtain ⟨y, rfl⟩ := exists_word second
      exact ⟨_, rfl, Option.some.inj ranked⟩
    · cases ranked
  case bvExtract =>
    unfold rank at ranked
    dsimp only at ranked
    split at ranked
    · obtain ⟨v, rfl, first⟩ := sorts_one sorts
      obtain ⟨x, rfl⟩ := exists_word first
      obtain ⟨range, result⟩ := Option.ite_none_right_eq_some.mp ranked
      exact ⟨_, if_pos range, Option.some.inj result⟩
    · cases ranked
  -- The other operators have no rank.
  all_goals cases ranked

end Ranks

end Op

/-- A division by zero has no value. -/
theorem Op.isZero_of_operate {op : Op} {v w z : Scalar} (divides : op.divides = true)
    (applied : op.operate [v, w] = some z) : w.isZero = false := by
  cases op with
  | div =>
    unfold operate at applied
    dsimp only at applied
    split at applied
    · next a b two =>
      obtain ⟨nonzero, _⟩ := Option.ite_none_left_eq_some.mp applied
      obtain ⟨rfl, rfl⟩ : v = .real a ∧ w = .real b := by simpa using two
      exact decide_eq_false nonzero
    · cases applied
  | intDiv | mod | rem =>
    obtain ⟨a, b, two, nonzero, _⟩ := Scalar.divide_eq_some applied
    obtain ⟨rfl, rfl⟩ : v = .int a ∧ w = .int b := by simpa using two
    exact decide_eq_false nonzero
  | _ => cases divides

/-- A literal has the value that it stands for. -/
theorem Scalar.operate_literal (v : Scalar) : v.literal.op.operate [] = some v := by
  cases v with
  | word width x => simp [literal, Op.operate, x.isLt, fixed]
  | _ => rfl

namespace Store

variable {s after : Store} {I J : TermId → Option Scalar} {t u : TermId} {v : Scalar}

/-- The value of a term, given the values of its arguments: a constant has the one that is assigned
to it. Only a value of the sort of the term counts. -/
def evaluateFrom (s : Store) (I : TermId → Option Scalar) (t : TermId)
    (values : List (Option Scalar)) : Option Scalar :=
  let value := match s.op t with
    | .var _ => I t
    | op => (values.mapM id).bind op.operate
  value.filter (·.sort = s.sortOf t)

/-- The value of a term under an assignment of values to constants; none if a part of it is not
well-sorted or divides by zero. -/
def evaluate (s : Store) (I : TermId → Option Scalar) (t : TermId) : Option Scalar :=
  s.evaluateFrom I t ((s.args t).attach.map fun a => s.evaluate I a.1)
termination_by t
decreasing_by exact lt_of_mem_args a.2

/-- The value of a term comes from the values of its arguments. -/
theorem evaluate_eq (s : Store) (I : TermId → Option Scalar) (t : TermId) :
    s.evaluate I t = s.evaluateFrom I t ((s.args t).map (s.evaluate I)) := by
  rw [evaluate, List.attach_map_val (f := s.evaluate I)]

/-- The value of a constant is the one that is assigned to it. -/
theorem evaluate_var {name : String} (var : s.op t = .var name) :
    s.evaluate I t = (I t).filter (·.sort = s.sortOf t) := by
  rw [evaluate_eq, evaluateFrom, var]

/-- The value of an application is that of its head on the values of its arguments. -/
theorem evaluate_eq_some (other : ∀ name, s.op t ≠ .var name) :
    s.evaluate I t = some v ↔ ∃ vs, List.Forall₂ (fun a w => s.evaluate I a = some w) (s.args t) vs ∧
      (s.op t).operate vs = some v ∧ v.sort = s.sortOf t := by
  have applied : s.evaluate I t = ((((s.args t).map (s.evaluate I)).mapM id).bind
      (s.op t).operate).filter (·.sort = s.sortOf t) := by
    rw [evaluate_eq, evaluateFrom]
    cases head : s.op t with
    | var name => exact absurd head (other name)
    | _ => rfl
  rw [applied]
  simp only [Option.filter_eq_some_iff, Option.bind_eq_some_iff, mapM_eq_some_iff,
    List.forall₂_map_left_iff, id_eq, decide_eq_true_eq]
  grind

/-- The value of a term is one of its sort. -/
theorem sort_of_evaluate (found : s.evaluate I t = some v) : v.sort = s.sortOf t := by
  rw [evaluate_eq] at found
  simpa using (Option.filter_eq_some_iff.mp found).2

/-- A term in the store keeps its value when the store grows. -/
theorem Extends.evaluate_eq (grown : s.Extends after) (inside : t < s.size) :
    after.evaluate I t = s.evaluate I t := by
  induction t using Nat.strongRecOn with
  | ind t smaller =>
    rw [Store.evaluate_eq, Store.evaluate_eq, evaluateFrom, evaluateFrom, grown.op_eq inside,
      grown.sortOf_eq inside, grown.args_eq inside]
    have arguments : (s.args t).map (after.evaluate I) = (s.args t).map (s.evaluate I) := by
      refine List.map_congr_left fun a member => ?_
      have before := lt_of_mem_args member
      exact smaller a before (before.trans inside)
    rw [arguments]

/-- The value of a term depends only on the values of its constants. -/
theorem evaluate_congr (same : ∀ c name, s.Occurs c t → s.op c = .var name → I c = J c) :
    s.evaluate I t = s.evaluate J t := by
  induction t using Nat.strongRecOn with
  | ind t smaller =>
    have arguments : (s.args t).map (s.evaluate I) = (s.args t).map (s.evaluate J) :=
      List.map_congr_left fun a member => smaller a (lt_of_mem_args member)
        fun c name occurs => same c name (.there member occurs)
    rw [evaluate_eq, evaluate_eq, arguments, evaluateFrom, evaluateFrom]
    cases head : s.op t with
    | var name => rw [same t name .here head]
    | _ => rfl

/-- A well-sorted term over constants of sorts with literals, without quantifiers: each application
has the sort that its constructor gives to it, and that is its rank. -/
inductive IsScalar (s : Store) : TermId → Prop
  /-- A constant of a sort with literals. -/
  | constant {t : TermId} {name : String} {sort : TermSort}
    (node : s.node t = ⟨.var name, [], sort⟩) (literals : sort.default?.isSome) : IsScalar s t
  /-- An application of an operator to such terms. -/
  | application {t : TermId} (inside : t < s.size)
    (built : s.sortOf t = s.inferSort (s.op t) (s.args t))
    (ranked : (s.op t).rank ((s.args t).map s.sortOf) = some (s.sortOf t))
    (args : ∀ a ∈ s.args t, IsScalar s a) : IsScalar s t

/-- No divisor in a term has the value zero. -/
def DivisorsNonzero (s : Store) (I : TermId → Option Scalar) (t : TermId) : Prop :=
  ∀ u, s.Occurs u t → (s.op u).divides → ∀ a b, s.args u = [a, b] →
    ∀ v, s.evaluate I b = some v → v.isZero = false

/-- Constants have no rank. -/
theorem op_ne_var_of_rank {op : Op} {sorts : List TermSort} {sort : TermSort}
    (ranked : op.rank sorts = some sort) (name : String) : op ≠ .var name := by
  rintro rfl
  simp [Op.rank] at ranked

/-- The sort of an application depends only on the sorts of its arguments. -/
theorem inferSort_congr {op : Op} {args others : List TermId}
    (same : args.map s.sortOf = others.map after.sortOf) :
    s.inferSort op args = after.inferSort op others := by
  have joins : s.arithJoin args = after.arithJoin others := by
    have all (s : Store) (args : List TermId) :
        args.all s.isInt = (args.map s.sortOf).all (· == .int) := by
      rw [List.all_map]
      rfl
    rw [arithJoin, arithJoin, all, all, same]
  have heads (s : Store) (args : List TermId) :
      s.headSort args = (args.map s.sortOf).head?.getD .bool := by cases args <;> rfl
  have widths (s : Store) (args : List TermId) :
      args.map s.bitWidth = (args.map s.sortOf).map (·.width?.getD 0) := by
    rw [List.map_map]
    rfl
  unfold inferSort
  split <;> simp only [joins, heads, widths, List.map_drop, same]

/-- An application has the sort that its constructor gives to it. -/
structure Built (s : Store) (op : Op) (args : List TermId) (sort : TermSort) (t : TermId) :
    Prop where
  /-- The application is in the store. -/
  inside : t < s.size
  /-- Its node. -/
  node : s.node t = ⟨op, args, sort⟩
  /-- The constructor gives it that sort. -/
  built : sort = s.inferSort op args

namespace Built

variable {op : Op} {args : List TermId} {sort : TermSort}

/-- The head of an application. -/
theorem op_eq (known : s.Built op args sort t) : s.op t = op := congrArg Node.op known.node

/-- The arguments of an application. -/
theorem args_eq (known : s.Built op args sort t) : s.args t = args := congrArg Node.args known.node

/-- The sort of an application. -/
theorem sort_eq (known : s.Built op args sort t) : s.sortOf t = sort := congrArg Node.sort known.node

/-- Head and arguments of an application. -/
theorem view (known : s.Built op args sort t) : s.view t = (op, args) := by
  rw [Store.view, known.node]

/-- The arguments of an application are in the store. -/
theorem lt_of_mem (known : s.Built op args sort t) : ∀ a ∈ args, a < s.size := by
  intro a member
  have argument : a ∈ s.args t := by rwa [Store.args, known.node]
  exact (lt_of_mem_args argument).trans known.inside

/-- An application stays one when the store grows. -/
theorem mono (known : s.Built op args sort t) (grown : s.Extends after) :
    after.Built op args sort t where
  inside := grown.lt_size known.inside
  node := (grown.node_eq known.inside).trans known.node
  built := by
    rw [known.built]
    refine inferSort_congr (List.map_congr_left fun a member => ?_)
    exact (grown.sortOf_eq (known.lt_of_mem a member)).symm

/-- The value of an application is that of its head on the values of its arguments. -/
theorem evaluate {vs : List Scalar} (known : s.Built op args sort t)
    (values : List.Forall₂ (fun a w => s.evaluate I a = some w) args vs)
    (applied : op.operate vs = some v) (same : v.sort = sort) : s.evaluate I t = some v := by
  refine (evaluate_eq_some fun name var => ?_).mpr ⟨vs, ?_, ?_, ?_⟩
  · rw [← known.op_eq, var] at applied
    cases applied
  · rwa [known.args_eq]
  · rwa [known.op_eq]
  · rwa [known.sort_eq]

end Built

namespace IsScalar

/-- A well-sorted term is in the store. -/
theorem inside (known : s.IsScalar t) : t < s.size := by
  cases known with
  | constant node => exact lt_size_of_var (congrArg Node.op node)
  | application inside => exact inside

/-- An operator on well-sorted terms with the sort that its constructor gives to it is a well-sorted
term if that is its rank. -/
theorem of_built {op : Op} {args : List TermId} {sort : TermSort} (known : s.Built op args sort t)
    (ranked : op.rank (args.map s.sortOf) = some sort) (each : ∀ a ∈ args, s.IsScalar a) :
    s.IsScalar t := by
  refine .application known.inside ?_ ?_ ?_
  · rw [known.sort_eq, known.op_eq, known.args_eq]
    exact known.built
  · rw [known.sort_eq, known.op_eq, known.args_eq, ranked]
  · rw [known.args_eq]
    exact each

/-- The arguments of a well-sorted term are well-sorted. -/
theorem of_mem_args {a : TermId} (known : s.IsScalar t) (member : a ∈ s.args t) : s.IsScalar a := by
  cases known with
  | constant node =>
    rw [args, node] at member
    cases member
  | application _ _ _ args => exact args a member

/-- A well-sorted term that is no constant has the sort that its constructor gives to it. -/
theorem sort_of_application (known : s.IsScalar t) (other : ∀ name, s.op t ≠ .var name) :
    s.sortOf t = s.inferSort (s.op t) (s.args t) ∧
      (s.op t).rank ((s.args t).map s.sortOf) = some (s.sortOf t) := by
  cases known with
  | constant node => exact absurd (congrArg Node.op node) (other _)
  | application _ built ranked => exact ⟨built, ranked⟩

/-- A well-sorted term has no quantifiers, and its constants have no arguments. -/
theorem plain (known : s.IsScalar t) : s.Plain t := by
  intro u occurs
  induction occurs with
  | here =>
    cases known with
    | constant node =>
      rw [op, node]
      exact ⟨rfl, fun _ _ => by rw [args, node]⟩
    | application _ _ ranked =>
      refine ⟨?_, fun name var => absurd var (op_ne_var_of_rank ranked name)⟩
      cases head : s.op u with
      | universal | existential => simp [head, Op.rank] at ranked
      | _ => rfl
  | there member _ below => exact below (known.of_mem_args member)

/-- A well-sorted term stays so when the store grows. -/
theorem mono (known : s.IsScalar t) (grown : s.Extends after) : after.IsScalar t := by
  induction known with
  | constant node literals =>
    have inside : _ < s.size := lt_size_of_var (congrArg Node.op node)
    exact .constant ((grown.node_eq inside).trans node) literals
  | @application t inside built ranked args later =>
    have sorts : (s.args t).map after.sortOf = (s.args t).map s.sortOf :=
      List.map_congr_left fun a member => grown.sortOf_eq (args a member).inside
    refine .application (grown.lt_size inside) ?_ ?_ ?_
    · rw [grown.sortOf_eq inside, grown.op_eq inside, grown.args_eq inside, built]
      exact inferSort_congr sorts.symm
    · rw [grown.sortOf_eq inside, grown.op_eq inside, grown.args_eq inside, sorts, ranked]
    · rw [grown.args_eq inside]
      exact later

/-- A term in a store that has grown is well-sorted only if it was so before. -/
theorem of_extends (grown : s.Extends after) (inside : t < s.size) (known : after.IsScalar t) :
    s.IsScalar t := by
  induction known with
  | constant node literals => exact .constant ((grown.node_eq inside).symm.trans node) literals
  | @application t _ built ranked args before =>
    rw [grown.args_eq inside] at built ranked before
    rw [grown.op_eq inside, grown.sortOf_eq inside] at built ranked
    have smaller (a : TermId) (member : a ∈ s.args t) : a < s.size :=
      (lt_of_mem_args member).trans inside
    have sorts : (s.args t).map after.sortOf = (s.args t).map s.sortOf :=
      List.map_congr_left fun a member => grown.sortOf_eq (smaller a member)
    refine .application inside ?_ ?_ fun a member => before a member (smaller a member)
    · rw [built]
      exact inferSort_congr sorts
    · rw [← sorts, ranked]

/-- A well-sorted term in which no divisor is zero has a value of its sort, if its constants
have. -/
theorem exists_evaluate (known : s.IsScalar t) (nonzero : s.DivisorsNonzero I t)
    (assigned : ∀ c name, s.Occurs c t → s.op c = .var name →
      ∃ v, I c = some v ∧ v.sort = s.sortOf c) :
    ∃ v, s.evaluate I t = some v := by
  induction known with
  | @constant t name sort node =>
    have var : s.op t = .var name := congrArg Node.op node
    obtain ⟨v, value, same⟩ := assigned t name .here var
    refine ⟨v, ?_⟩
    rw [evaluate_var var, value, Option.filter_some, if_pos (decide_eq_true same)]
  | @application t inside built ranked args values =>
    have each : ∀ a ∈ s.args t, ∃ v, s.evaluate I a = some v := fun a member =>
      values a member (fun u occurs => nonzero u (.there member occurs))
        fun c name occurs => assigned c name (.there member occurs)
    choose! value found using each
    have sorts : ((s.args t).map value).map Scalar.sort = (s.args t).map s.sortOf := by
      rw [List.map_map]
      exact List.map_congr_left fun a member => sort_of_evaluate (found a member)
    rw [← sorts] at ranked
    obtain ⟨v, applied, sort⟩ := Op.operate_of_rank ranked fun divides v w two => by
      obtain ⟨a, rest, arguments, _, tail⟩ := List.map_eq_cons_iff.mp two
      obtain ⟨b, rest, rfl, rfl, none⟩ := List.map_eq_cons_iff.mp tail
      obtain rfl := List.map_eq_nil_iff.mp none
      exact nonzero t .here divides a b arguments _ (found b (by simp [arguments]))
    refine ⟨v, (evaluate_eq_some (op_ne_var_of_rank ranked)).mpr ⟨_, ?_, applied, sort⟩⟩
    rw [List.forall₂_map_right_iff, List.forall₂_same]
    exact found

/-- In a well-sorted term with a value no divisor is zero. -/
theorem divisorsNonzero (known : s.IsScalar t) (value : s.evaluate I t = some v) :
    s.DivisorsNonzero I t := by
  intro u occurs
  induction occurs generalizing v with
  | here =>
    intro divides a b two w divisor
    have other : ∀ name, s.op u ≠ .var name := by
      intro name var
      rw [var] at divides
      cases divides
    obtain ⟨vs, values, applied, _⟩ := (evaluate_eq_some other).mp value
    rw [two] at values
    obtain ⟨_, _, _, tail, rfl⟩ := List.forall₂_cons_left_iff.mp values
    obtain ⟨_, _, same, none, rfl⟩ := List.forall₂_cons_left_iff.mp tail
    obtain rfl := List.forall₂_nil_left_iff.mp none
    obtain rfl := Option.some.inj (divisor.symm.trans same)
    exact Op.isZero_of_operate divides applied
  | @there a t member _ below =>
    cases known with
    | constant node =>
      rw [args, node] at member
      cases member
    | application _ _ ranked args =>
      obtain ⟨vs, values, _⟩ := (evaluate_eq_some (op_ne_var_of_rank ranked)).mp value
      obtain ⟨w, _, found⟩ := exists_of_forall₂ values member
      exact below (args a member) found

end IsScalar

end Store

namespace Terms

variable {s : Store} {op : Op} {args : List TermId} {sort : TermSort} {t : TermId}

/-- An operator is built on terms. -/
theorem mkApp_built {sort : TermSort} (inside : ∀ a ∈ args, a < s.size)
    (same : sort = s.inferSort op args) :
    (mkApp op args).Ensures s fun t after => after.Built op args sort t := by
  refine (mkApp_node inside).imp fun t after grown found => ⟨found.1, same ▸ found.2, ?_⟩
  rw [same]
  refine Store.inferSort_congr (List.map_congr_left fun a member => ?_)
  exact (grown.sortOf_eq (inside a member)).symm

/-- Other arguments of the same sorts for an application. -/
theorem rebuild_built {old : List TermId} (known : s.Built op old sort t)
    (inferred : op.hasOwnSort = false) (inside : ∀ a ∈ args, a < s.size)
    (sorts : args.map s.sortOf = old.map s.sortOf) :
    (rebuild t args).Ensures s fun u after => after.Built op args sort u := by
  unfold rebuild
  refine ensures_read_bind ?_
  rw [known.node]
  dsimp only
  split
  · next same =>
    subst same
    exact ensures_pure known
  · rw [inferred]
    exact mkApp_built inside (known.built.trans (Store.inferSort_congr sorts.symm))

end Terms

end Stratagem
