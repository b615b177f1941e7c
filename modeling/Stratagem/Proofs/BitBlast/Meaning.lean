import Stratagem.BitBlast.Blaster
import Stratagem.Proofs.BitBlast.Circuit
import Stratagem.Proofs.Term.Building

/-!
# The meaning of bit-vector terms

The value of a term under an assignment of truth values and bit-vectors to constants, and the
terms that have one: well-sorted formulas over booleans and bit-vectors. Operations are those of
the library's bit-vectors. Formulas with their truth values are a reading of terms that agrees with
the connectives, so that circuits over them compute what they should.
-/
namespace Stratagem

open ModelConverter (numberOf)

/-- A sort with a width is that of the bit-vectors of that width. -/
theorem TermSort.eq_bitVec {sort : TermSort} {w : ℕ} (width : sort.width? = some w) :
    sort = .bitVec w := by
  cases sort with
  | bitVec v => rw [Option.some.inj width]
  | _ => cases width

/-- Values for the constants of the boolean and the bit-vector sorts. -/
structure BitAssignment where
  /-- Truth values of boolean constants. -/
  truth : String → Bool
  /-- Values of bit-vector constants, by name and width. -/
  word : String → (width : ℕ) → BitVec width

/-- The value of a term: a truth value or a bit-vector. -/
inductive Datum where
  /-- A truth value. -/
  | truth (p : Bool)
  /-- A bit-vector. -/
  | word (width : ℕ) (x : BitVec width)
  deriving DecidableEq

namespace Datum

/-- Whether a value is true; bit-vectors are not. -/
def holds : Datum → Bool
  | truth p => p
  | word .. => false

@[simp] theorem holds_truth (p : Bool) : (truth p).holds = p := rfl

/-- An operation on one bit-vector. -/
def map (f : ∀ {w : ℕ}, BitVec w → BitVec w) : Datum → Datum
  | word w x => word w (f x)
  | truth _ => truth false

/-- An operation on two bit-vectors of one width. -/
def combine (f : ∀ {w : ℕ}, BitVec w → BitVec w → BitVec w) : Datum → Datum → Datum
  | word w x, word _ y => word w (f x (y.setWidth w))
  | _, _ => truth false

/-- A predicate on two bit-vectors of one width. -/
def compare (f : ∀ {w : ℕ}, BitVec w → BitVec w → Bool) : Datum → Datum → Datum
  | word w x, word _ y => truth (f x (y.setWidth w))
  | _, _ => truth false

/-- The concatenation of bit-vectors, the high part first. -/
def append : Datum → Datum → Datum
  | word w x, word v y => word (w + v) (x ++ y)
  | _, _ => truth false

/-- The bits of a bit-vector from one position down to another. -/
def extract (high low : ℕ) : Datum → Datum
  | word _ x => word (high - low + 1) (x.extractLsb high low)
  | truth _ => truth false

section Words

variable {w v : ℕ} (x y : BitVec w) (z : BitVec v)

@[simp] theorem map_word (f : ∀ {w : ℕ}, BitVec w → BitVec w) :
    (word w x).map f = word w (f x) := rfl

@[simp] theorem combine_word (f : ∀ {w : ℕ}, BitVec w → BitVec w → BitVec w) :
    (word w x).combine f (word w y) = word w (f x y) := by
  rw [combine, BitVec.setWidth_eq]

@[simp] theorem compare_word (f : ∀ {w : ℕ}, BitVec w → BitVec w → Bool) :
    (word w x).compare f (word w y) = truth (f x y) := by
  rw [compare, BitVec.setWidth_eq]

@[simp] theorem append_word : (word w x).append (word v z) = word (w + v) (x ++ z) := rfl

@[simp] theorem extract_word (high low : ℕ) :
    (word w x).extract high low = word (high - low + 1) (x.extractLsb high low) := rfl

end Words

/-- The values of a sort. -/
def HasSort : Datum → TermSort → Prop
  | truth _, .bool => True
  | word w _, .bitVec v => w = v
  | _, _ => False

/-- A value of the boolean sort is a truth value. -/
theorem eq_truth {d : Datum} (typed : d.HasSort .bool) : d = .truth d.holds := by
  cases d with
  | truth => rfl
  | word => exact typed.elim

/-- A value of a bit-vector sort is a bit-vector of that width. -/
theorem exists_word {d : Datum} {w : ℕ} (typed : d.HasSort (.bitVec w)) :
    ∃ x : BitVec w, d = .word w x := by
  cases d with
  | truth => exact typed.elim
  | word v x =>
    obtain rfl : v = w := typed
    exact ⟨x, rfl⟩

end Datum

/-- The value of a constant: names of different sorts are different constants. -/
def BitAssignment.constant (I : BitAssignment) (name : String) : TermSort → Datum
  | .bitVec w => .word w (I.word name w)
  | _ => .truth (I.truth name)

/-- The value of an application, from its head, its sort and the values of its arguments. -/
def Op.compute (I : BitAssignment) (sort : TermSort) : Op → List Datum → Datum
  | bool b, _ => .truth b
  | var name, _ => I.constant name sort
  | bitVec value width, _ => .word width (BitVec.ofNat width value)
  | not, [a] => .truth (!a.holds)
  | and, args => .truth (args.all Datum.holds)
  | or, args => .truth (args.any Datum.holds)
  | implies, [a, b] => .truth (!a.holds || b.holds)
  | xor, [a, b] => .truth (a.holds ^^ b.holds)
  | ite, [c, a, b] => if c.holds then a else b
  | eq, [a, b] => .truth (decide (a = b))
  | distinct, args => .truth (decide (args.Pairwise (· ≠ ·)))
  | bvNot, [a] => a.map (~~~·)
  | bvNeg, [a] => a.map (-·)
  | bvAnd, [a, b] => a.combine (· &&& ·) b
  | bvOr, [a, b] => a.combine (· ||| ·) b
  | bvXor, [a, b] => a.combine (· ^^^ ·) b
  | bvAdd, [a, b] => a.combine (· + ·) b
  | bvSub, [a, b] => a.combine (· - ·) b
  | bvMul, [a, b] => a.combine (· * ·) b
  | bvConcat, [a, b] => a.append b
  | bvExtract high low, [a] => a.extract high low
  | bvUlt, [a, b] => a.compare BitVec.ult b
  | bvUle, [a, b] => a.compare BitVec.ule b
  | bvSlt, [a, b] => a.compare BitVec.slt b
  | bvSle, [a, b] => a.compare BitVec.sle b
  | _, _ => .truth false

/-- The constants, by name and sort, that may occur in a term. -/
abbrev Constants := String → TermSort → Prop

/-- All constants. -/
def Constants.all : Constants := fun _ _ => True

namespace Store

/-- The value of a term over booleans and bit-vectors under an assignment. -/
def datum (s : Store) (I : BitAssignment) (t : TermId) : Datum :=
  (s.op t).compute I (s.sortOf t) ((s.args t).attach.map fun a => s.datum I a.1)
termination_by t
decreasing_by exact lt_of_mem_args a.2

/-- The value of a term is that of its head on the values of its arguments. -/
theorem datum_eq (s : Store) (I : BitAssignment) (t : TermId) :
    s.datum I t = (s.op t).compute I (s.sortOf t) ((s.args t).map (s.datum I)) := by
  rw [datum, List.attach_map_val (f := s.datum I)]

/-- An application is a well-sorted term over boolean and bit-vector constants, given the sorts of
its arguments. -/
def BitFits (s : Store) (K : Constants) (sort : TermSort) : Op → List TermId → Prop
  | .bool _, [] => sort = .bool
  | .var name, [] => K name sort ∧ (sort = .bool ∨ ∃ w, sort = .bitVec w)
  | .bitVec _ w, [] => sort = .bitVec w
  | .not, [a] => sort = .bool ∧ s.sortOf a = .bool
  | .and, args | .or, args => sort = .bool ∧ ∀ a ∈ args, s.sortOf a = .bool
  | .implies, [a, b] | .xor, [a, b] => sort = .bool ∧ s.sortOf a = .bool ∧ s.sortOf b = .bool
  | .ite, [c, a, b] => s.sortOf c = .bool ∧ s.sortOf a = sort ∧ s.sortOf b = sort
  | .eq, [a, b] => sort = .bool ∧ s.sortOf b = s.sortOf a
  | .distinct, args => sort = .bool ∧ ∀ a ∈ args, ∀ b ∈ args, s.sortOf a = s.sortOf b
  | .bvNot, [a] | .bvNeg, [a] => ∃ w, sort = .bitVec w ∧ s.sortOf a = .bitVec w
  | .bvAnd, [a, b] | .bvOr, [a, b] | .bvXor, [a, b] | .bvAdd, [a, b] | .bvSub, [a, b]
  | .bvMul, [a, b] => ∃ w, sort = .bitVec w ∧ s.sortOf a = .bitVec w ∧ s.sortOf b = .bitVec w
  | .bvConcat, [a, b] =>
    ∃ w v, sort = .bitVec (w + v) ∧ s.sortOf a = .bitVec w ∧ s.sortOf b = .bitVec v
  | .bvExtract high low, [a] =>
    ∃ w, sort = .bitVec (high - low + 1) ∧ s.sortOf a = .bitVec w ∧ low ≤ high ∧ high < w
  | .bvUlt, [a, b] | .bvUle, [a, b] | .bvSlt, [a, b] | .bvSle, [a, b] =>
    sort = .bool ∧ ∃ w, s.sortOf a = .bitVec w ∧ s.sortOf b = .bitVec w
  | _, _ => False

/-- A term is a well-sorted formula or bit-vector over some boolean and bit-vector constants,
without quantifiers. -/
inductive BitSorted (s : Store) (K : Constants) : TermId → Prop
  | intro {t : TermId} (inside : t < s.size) (fits : s.BitFits K (s.sortOf t) (s.op t) (s.args t))
    (args : ∀ a ∈ s.args t, BitSorted s K a) : BitSorted s K t

namespace BitSorted

variable {s after : Store} {K : Constants} {I : BitAssignment} {t : TermId}

/-- A well-sorted term is in the store. -/
theorem inside (sorted : s.BitSorted K t) : t < s.size := by
  cases sorted
  assumption

/-- A well-sorted term fits its arguments. -/
theorem fits (sorted : s.BitSorted K t) : s.BitFits K (s.sortOf t) (s.op t) (s.args t) := by
  cases sorted
  assumption

/-- The arguments of a well-sorted term are well-sorted. -/
theorem of_mem_args (sorted : s.BitSorted K t) {a : TermId} (member : a ∈ s.args t) :
    s.BitSorted K a := by
  cases sorted with
  | intro _ _ args => exact args a member

/-- A well-sorted application is one in every store in which its arguments have the same sorts. -/
theorem fits_congr {sort : TermSort} {op : Op} {args : List TermId}
    (sorts : ∀ a ∈ args, after.sortOf a = s.sortOf a) (fits : s.BitFits K sort op args) :
    after.BitFits K sort op args := by
  revert fits
  unfold BitFits
  split <;> intro fits <;> grind

/-- A well-sorted term stays so when the store grows. -/
theorem mono (sorted : s.BitSorted K t) (grown : s.Extends after) : after.BitSorted K t := by
  induction sorted with
  | @intro t inside fits args same =>
    have sorts : ∀ a ∈ s.args t, after.sortOf a = s.sortOf a :=
      fun a member => grown.sortOf_eq (args a member).inside
    apply BitSorted.intro (grown.lt_size inside)
    · rw [grown.sortOf_eq inside, grown.op_eq inside, grown.args_eq inside]
      exact fits_congr sorts fits
    · rw [grown.args_eq inside]
      exact same

/-- A term in a store that has grown is well-sorted only if it was so before. -/
theorem of_extends (grown : s.Extends after) (inside : t < s.size) (sorted : after.BitSorted K t) :
    s.BitSorted K t := by
  induction sorted with
  | @intro t _ fits args before =>
    rw [grown.args_eq inside] at args before
    have smaller : ∀ a ∈ s.args t, a < s.size := fun a member =>
      (lt_of_mem_args member).trans inside
    apply BitSorted.intro inside
    · rw [grown.op_eq inside, grown.args_eq inside, grown.sortOf_eq inside] at fits
      exact fits_congr (fun a member => (grown.sortOf_eq (smaller a member)).symm) fits
    · exact fun a member => before a member (smaller a member)

/-- A well-sorted term whose constants are among others is well-sorted over those. -/
theorem widen {L : Constants} (sorted : s.BitSorted K t)
    (within : ∀ name sort, K name sort → L name sort) : s.BitSorted L t := by
  induction sorted with
  | intro inside fits args wider =>
    apply BitSorted.intro inside _ wider
    revert fits
    unfold BitFits
    split <;> intro fits
    case h_2 => exact ⟨within _ _ fits.1, fits.2⟩
    all_goals exact fits

/-- The value of a well-sorted application is one of its sort, if that of each argument is. -/
theorem hasSort_compute {sort : TermSort} {op : Op} {args : List TermId}
    (fits : s.BitFits K sort op args) (typed : ∀ a ∈ args, (s.datum I a).HasSort (s.sortOf a)) :
    (op.compute I sort (args.map (s.datum I))).HasSort sort := by
  have vector : ∀ a ∈ args, ∀ w, s.sortOf a = .bitVec w → ∃ x : BitVec w,
      s.datum I a = .word w x := fun a member w same => Datum.exists_word (same ▸ typed a member)
  revert fits
  unfold BitFits
  split <;> intro fits
  case h_2 name =>
    obtain ⟨_, rfl | ⟨w, rfl⟩⟩ := fits
    · trivial
    · rfl
  case h_9 c a b =>
    obtain ⟨_, rfl, same⟩ := fits
    simp only [List.map_cons, List.map_nil, Op.compute]
    split_ifs
    · exact typed a (by simp)
    · exact same ▸ typed b (by simp)
  case h_12 a | h_13 a =>
    obtain ⟨w, rfl, same⟩ := fits
    obtain ⟨x, value⟩ := vector a (by simp) w same
    simp [Op.compute, value, Datum.HasSort]
  case h_20 a b =>
    obtain ⟨w, v, rfl, first, second⟩ := fits
    obtain ⟨x, value⟩ := vector a (by simp) w first
    obtain ⟨y, other⟩ := vector b (by simp) v second
    simp [Op.compute, value, other, Datum.HasSort]
  case h_21 a =>
    obtain ⟨w, rfl, same, _⟩ := fits
    obtain ⟨x, value⟩ := vector a (by simp) w same
    simp [Op.compute, value, Datum.HasSort]
  case h_14 a b | h_15 a b | h_16 a b | h_17 a b | h_18 a b | h_19 a b =>
    obtain ⟨w, rfl, first, second⟩ := fits
    obtain ⟨x, value⟩ := vector a (by simp) w first
    obtain ⟨y, other⟩ := vector b (by simp) w second
    simp [Op.compute, value, other, Datum.HasSort]
  case h_22 a b | h_23 a b | h_24 a b | h_25 a b =>
    obtain ⟨rfl, w, first, second⟩ := fits
    obtain ⟨x, value⟩ := vector a (by simp) w first
    obtain ⟨y, other⟩ := vector b (by simp) w second
    simp [Op.compute, value, other, Datum.HasSort]
  -- The heads that are left are literals and connectives.
  case h_1 | h_3 =>
    subst fits
    trivial
  case h_26 => exact fits.elim
  all_goals
    obtain ⟨rfl, _⟩ := fits
    trivial

/-- The value of a well-sorted term is one of its sort. -/
theorem hasSort (sorted : s.BitSorted K t) : (s.datum I t).HasSort (s.sortOf t) := by
  induction sorted with
  | intro inside fits args typed =>
    rw [datum_eq]
    exact hasSort_compute fits typed

/-- A well-sorted term of the boolean sort has a truth value. -/
theorem datum_truth (sorted : s.BitSorted K t) (bool : s.sortOf t = .bool) :
    s.datum I t = .truth (s.datum I t).holds :=
  Datum.eq_truth (bool ▸ sorted.hasSort)

/-- A well-sorted term of a bit-vector sort has a bit-vector as its value. -/
theorem datum_word (sorted : s.BitSorted K t) {w : ℕ} (vector : s.sortOf t = .bitVec w) :
    ∃ x : BitVec w, s.datum I t = .word w x :=
  Datum.exists_word (vector ▸ sorted.hasSort)

/-- A well-sorted term with a truth value is of the boolean sort. -/
theorem sort_of_truth {p : Bool} (sorted : s.BitSorted K t) (value : s.datum I t = .truth p) :
    s.sortOf t = .bool := by
  have typed := sorted.hasSort (I := I)
  rw [value] at typed
  cases sort : s.sortOf t <;> rw [sort] at typed <;> first | rfl | exact typed.elim

/-- A well-sorted term with a bit-vector as its value is of that bit-vector sort. -/
theorem sort_of_word {w : ℕ} {x : BitVec w} (sorted : s.BitSorted K t)
    (value : s.datum I t = .word w x) : s.sortOf t = .bitVec w := by
  have typed := sorted.hasSort (I := I)
  rw [value] at typed
  cases sort : s.sortOf t <;> rw [sort] at typed <;> first | exact typed.elim | exact typed ▸ rfl

/-- A well-sorted term by its head and its arguments. -/
theorem of_view {op : Op} {args : List TermId} (sorted : s.BitSorted K t)
    (view : s.view t = (op, args)) :
    s.BitFits K (s.sortOf t) op args ∧ (∀ a ∈ args, s.BitSorted K a) ∧
      ∀ I, s.datum I t = op.compute I (s.sortOf t) (args.map (s.datum I)) := by
  have head : s.op t = op := congrArg Prod.fst view
  have arguments : s.args t = args := congrArg Prod.snd view
  rw [← head, ← arguments]
  exact ⟨sorted.fits, fun a member => sorted.of_mem_args member, fun I => s.datum_eq I t⟩

end BitSorted

/-- A term in the store keeps its value when the store grows. -/
theorem Extends.datum_eq {s after : Store} (grown : s.Extends after) (I : BitAssignment)
    {t : TermId} (inside : t < s.size) : after.datum I t = s.datum I t := by
  induction t using Nat.strongRecOn with
  | ind t smaller =>
    rw [Store.datum_eq, Store.datum_eq, grown.op_eq inside, grown.sortOf_eq inside,
      grown.args_eq inside]
    congr 1
    apply List.map_congr_left
    intro a member
    have before := lt_of_mem_args member
    exact smaller a before (before.trans inside)

end Store

/-- The value of an application depends on the assignment only if its head is a constant. -/
theorem Op.compute_congr {I J : BitAssignment} {sort : TermSort} {op : Op}
    (known : ∀ name, op = .var name → I.constant name sort = J.constant name sort)
    (args : List Datum) : op.compute I sort args = op.compute J sort args := by
  by_cases var : ∃ name, op = .var name
  · obtain ⟨name, rfl⟩ := var
    exact known name rfl
  · unfold compute
    split
    case h_2 name => exact absurd ⟨name, rfl⟩ var
    all_goals grind

/-- The value of a term depends on the constants it is built over only. -/
theorem Store.BitSorted.datum_congr {s : Store} {K : Constants} {I J : BitAssignment} {t : TermId}
    (sorted : s.BitSorted K t)
    (agree : ∀ name sort, K name sort → sort = .bool ∨ (∃ w, sort = .bitVec w) →
      I.constant name sort = J.constant name sort) :
    s.datum I t = s.datum J t := by
  induction sorted with
  | @intro t inside fits args same =>
    rw [datum_eq, datum_eq, List.map_congr_left same]
    apply Op.compute_congr
    intro name head
    rw [head] at fits
    cases arguments : s.args t with
    | nil =>
      rw [arguments] at fits
      exact agree name _ fits.1 fits.2
    | cons =>
      rw [arguments] at fits
      exact fits.elim

/-- A term is well-sorted over booleans and bit-vectors and has a sort and a value. -/
structure Store.Computes (s : Store) (K : Constants) (I : BitAssignment) (t : TermId) (sort : TermSort)
    (d : Datum) : Prop where
  /-- The term is well-sorted. -/
  sorted : s.BitSorted K t
  /-- The sort of the term. -/
  sort_eq : s.sortOf t = sort
  /-- The value of the term. -/
  datum_eq : s.datum I t = d

namespace Store.Computes

variable {s after : Store} {K : Constants} {I : BitAssignment} {t : TermId} {sort : TermSort} {d : Datum}

/-- What a term computes does not change when the store grows. -/
theorem mono (known : s.Computes K I t sort d) (grown : s.Extends after) :
    after.Computes K I t sort d where
  sorted := known.sorted.mono grown
  sort_eq := by rw [grown.sortOf_eq known.sorted.inside, known.sort_eq]
  datum_eq := by rw [grown.datum_eq I known.sorted.inside, known.datum_eq]

/-- A term computes the same over more constants. -/
theorem widen {L : Constants} (known : s.Computes K I t sort d)
    (within : ∀ name sort, K name sort → L name sort) : s.Computes L I t sort d :=
  ⟨known.sorted.widen within, known.sort_eq, known.datum_eq⟩

/-- A well-sorted term of the boolean sort has a truth value. -/
theorem formula (sorted : s.BitSorted K t) (bool : s.sortOf t = .bool) :
    s.Computes K I t .bool (.truth (s.datum I t).holds) :=
  ⟨sorted, bool, sorted.datum_truth bool⟩

/-- The values of formulas. -/
theorem map_datum {terms : List TermId} {ps : List Bool}
    (known : List.Forall₂ (fun t p => s.Computes K I t .bool (.truth p)) terms ps) :
    terms.map (s.datum I) = ps.map .truth := by
  induction known with
  | nil => rfl
  | cons first _ rest => rw [List.map_cons, List.map_cons, first.datum_eq, rest]

/-- Formulas are well-sorted and of the boolean sort. -/
theorem of_mem {terms : List TermId} {ps : List Bool}
    (known : List.Forall₂ (fun t p => s.Computes K I t .bool (.truth p)) terms ps) {t : TermId}
    (member : t ∈ terms) : s.BitSorted K t ∧ s.sortOf t = .bool := by
  obtain ⟨p, _, computes⟩ := exists_of_forall₂ known member
  exact ⟨computes.sorted, computes.sort_eq⟩

end Store.Computes

namespace Terms

variable {s : Store} {K : Constants} {I : BitAssignment} {sort : TermSort} {op : Op} {args : List TermId}

/-- A node that fits well-sorted arguments computes the value of its head. -/
theorem computes_of_node {after : Store} {t : TermId} (grown : s.Extends after)
    (found : t < after.size ∧ after.node t = ⟨op, args, sort⟩) (fits : s.BitFits K sort op args)
    (sorted : ∀ a ∈ args, s.BitSorted K a) :
    after.Computes K I t sort (op.compute I sort (args.map (s.datum I))) := by
  obtain ⟨inside, node⟩ := found
  have head : after.op t = op := by rw [Store.op, node]
  have arguments : after.args t = args := by rw [Store.args, node]
  have same : after.sortOf t = sort := by rw [Store.sortOf, node]
  constructor
  · apply Store.BitSorted.intro inside
    · rw [head, arguments, same]
      exact Store.BitSorted.fits_congr
        (fun a member => grown.sortOf_eq (sorted a member).inside) fits
    · rw [arguments]
      exact fun a member => (sorted a member).mono grown
  · exact same
  · rw [Store.datum_eq, head, arguments, same]
    congr 1
    exact List.map_congr_left fun a member => grown.datum_eq I (sorted a member).inside

/-- An application that fits well-sorted arguments computes the value of its head. -/
theorem mkApp_computes {d : Datum} (fits : s.BitFits K sort op args)
    (sorted : ∀ a ∈ args, s.BitSorted K a) (same : s.inferSort op args = sort)
    (value : op.compute I sort (args.map (s.datum I)) = d) :
    (mkApp op args).Ensures s fun t after => after.Computes K I t sort d := by
  have inside : ∀ a ∈ args, a < s.size := fun a member => (sorted a member).inside
  apply (mkApp_node inside).imp
  intro t after grown found
  rw [same] at found
  exact value ▸ computes_of_node grown found fits sorted

section Formulas

variable {a b c : TermId} {p q r : Bool} {d e : Datum}

/-- The literals. -/
theorem computes_ofBool (s : Store) (p : Bool) : s.Computes K I (ofBool p) .bool (.truth p) := by
  have fits : s.BitFits K .bool (.bool p) [] := rfl
  cases p with
  | true => exact computes_of_node (.refl s) s.node_trueId fits nofun
  | false => exact computes_of_node (.refl s) s.node_falseId fits nofun

/-- A literal has its own truth value. -/
theorem computes_of_bool {t : TermId} {b : Bool} (known : s.Computes K I t .bool (.truth p))
    (view : s.view t = (.bool b, args)) : p = b := by
  obtain ⟨_, _, value⟩ := known.sorted.of_view view
  exact Datum.truth.inj (known.datum_eq.symm.trans (value I))

/-- Negation. -/
theorem mkNot_computes (known : s.Computes K I a .bool (.truth p)) :
    (mkNot a).Ensures s fun t after => after.Computes K I t .bool (.truth !p) := by
  have fits : s.BitFits K .bool .not [a] := ⟨rfl, known.sort_eq⟩
  exact mkApp_computes fits (by simpa using known.sorted) rfl
    (by simp [Op.compute, known.datum_eq])

/-- The formula under a negation. -/
theorem computes_of_not {t : TermId} (known : s.Computes K I t .bool (.truth p))
    (view : s.view t = (.not, [a])) : s.Computes K I a .bool (.truth !p) := by
  obtain ⟨fits, sorted, value⟩ := known.sorted.of_view view
  have flipped : (!(s.datum I a).holds) = p :=
    Datum.truth.inj ((value I).symm.trans known.datum_eq)
  rw [← flipped, Bool.not_not]
  exact .formula (sorted a (by simp)) fits.2

/-- Formulas have truth values one by one. -/
theorem formulas_compute (sorted : ∀ a ∈ args, s.BitSorted K a)
    (bool : ∀ a ∈ args, s.sortOf a = .bool) :
    List.Forall₂ (fun a q => s.Computes K I a .bool (.truth q)) args
      (args.map fun a => (s.datum I a).holds) := by
  apply List.forall₂_map_right_iff.mpr
  apply List.forall₂_same.mpr
  exact fun a member => .formula (sorted a member) (bool a member)

/-- The formulas in a conjunction. -/
theorem computes_of_and {t : TermId} (known : s.Computes K I t .bool (.truth p))
    (view : s.view t = (.and, args)) :
    ∃ ps, List.Forall₂ (fun a q => s.Computes K I a .bool (.truth q)) args ps ∧
      p = ps.all id := by
  obtain ⟨fits, sorted, value⟩ := known.sorted.of_view view
  refine ⟨_, formulas_compute sorted fits.2, ?_⟩
  rw [← Datum.truth.inj ((value I).symm.trans known.datum_eq), List.all_map, List.all_map]
  rfl

/-- The formulas in a disjunction. -/
theorem computes_of_or {t : TermId} (known : s.Computes K I t .bool (.truth p))
    (view : s.view t = (.or, args)) :
    ∃ ps, List.Forall₂ (fun a q => s.Computes K I a .bool (.truth q)) args ps ∧
      p = ps.any id := by
  obtain ⟨fits, sorted, value⟩ := known.sorted.of_view view
  refine ⟨_, formulas_compute sorted fits.2, ?_⟩
  rw [← Datum.truth.inj ((value I).symm.trans known.datum_eq), List.any_map, List.any_map]
  rfl

/-- Conjunction. -/
theorem mkAnd_computes {ps : List Bool}
    (known : List.Forall₂ (fun t p => s.Computes K I t .bool (.truth p)) args ps) :
    (mkAnd args).Ensures s fun t after => after.Computes K I t .bool (.truth (ps.all id)) := by
  match args, ps, known with
  | [], [], .nil => exact computes_ofBool s true
  | [a], [p], .cons only .nil =>
    rw [List.all_cons, List.all_nil, Bool.and_true]
    exact only
  | a :: b :: rest, ps, known =>
    have each := fun t => Store.Computes.of_mem known (t := t)
    have fits : s.BitFits K .bool .and (a :: b :: rest) := ⟨rfl, fun t member => (each t member).2⟩
    apply mkApp_computes fits (fun t member => (each t member).1) rfl
    rw [Store.Computes.map_datum known, Op.compute, List.all_map]
    rfl

/-- Disjunction. -/
theorem mkOr_computes {ps : List Bool}
    (known : List.Forall₂ (fun t p => s.Computes K I t .bool (.truth p)) args ps) :
    (mkOr args).Ensures s fun t after => after.Computes K I t .bool (.truth (ps.any id)) := by
  match args, ps, known with
  | [], [], .nil => exact computes_ofBool s false
  | [a], [p], .cons only .nil =>
    rw [List.any_cons, List.any_nil, Bool.or_false]
    exact only
  | a :: b :: rest, ps, known =>
    have each := fun t => Store.Computes.of_mem known (t := t)
    have fits : s.BitFits K .bool .or (a :: b :: rest) := ⟨rfl, fun t member => (each t member).2⟩
    apply mkApp_computes fits (fun t member => (each t member).1) rfl
    rw [Store.Computes.map_datum known, Op.compute, List.any_map]
    rfl

/-- Difference. -/
theorem mkXor_computes (left : s.Computes K I a .bool (.truth p))
    (right : s.Computes K I b .bool (.truth q)) :
    (mkApp .xor [a, b]).Ensures s fun t after => after.Computes K I t .bool (.truth (p ^^ q)) := by
  have fits : s.BitFits K .bool .xor [a, b] := ⟨rfl, left.sort_eq, right.sort_eq⟩
  exact mkApp_computes fits (by simp [left.sorted, right.sorted]) rfl
    (by simp [Op.compute, left.datum_eq, right.datum_eq])

/-- Case distinction between terms of one sort. -/
theorem mkIte_computes (condition : s.Computes K I c .bool (.truth r))
    (yes : s.Computes K I a sort d) (no : s.Computes K I b sort e) :
    (mkIte c a b).Ensures s fun t after => after.Computes K I t sort (if r then d else e) := by
  have fits : s.BitFits K sort .ite [c, a, b] := ⟨condition.sort_eq, yes.sort_eq, no.sort_eq⟩
  apply mkApp_computes fits (by simp [condition.sorted, yes.sorted, no.sorted]) yes.sort_eq
  simp only [List.map_cons, List.map_nil, condition.datum_eq, yes.datum_eq, no.datum_eq]
  rfl

end Formulas

end Terms

namespace BitAssignment

open Terms

/-- Formulas with their truth values under an assignment agree with the connectives. -/
def reading (K : Constants) (I : BitAssignment) : Reading where
  Bit s t p := s.Computes K I t .bool (.truth p)
  mono known grown := known.mono grown
  unique left right := Datum.truth.inj (left.datum_eq.symm.trans right.datum_eq)
  ofBool := computes_ofBool
  of_bool := computes_of_bool
  not := mkNot_computes
  of_not := computes_of_not
  and := mkAnd_computes
  or := mkOr_computes
  of_and := computes_of_and
  of_or := computes_of_or
  xor := mkXor_computes
  ite condition yes no := (mkIte_computes condition yes no).imp fun _ _ _ built => by
    rwa [← apply_ite] at built

/-- The assignment in which bit-vector constants have the values that truth values of their bits
give them. -/
def ofBits (truth : String → Bool) : BitAssignment where
  truth := truth
  word name width := BitVec.ofNat width (numberOf ((Blaster.bitNames name width).map truth))

/-- The bits of a constant whose value is that of its bits. -/
theorem digits_ofBits (truth : String → Bool) (name : String) (width : ℕ) :
    digits ((ofBits truth).word name width) = (Blaster.bitNames name width).map truth := by
  have length : ((Blaster.bitNames name width).map truth).length = width := by
    simp [Blaster.bitNames]
  apply Eq.symm
  apply eq_digits length
  have small := numberOf_lt ((Blaster.bitNames name width).map truth)
  rw [length] at small
  exact (Nat.mod_eq_of_lt small).symm

end BitAssignment

end Stratagem
