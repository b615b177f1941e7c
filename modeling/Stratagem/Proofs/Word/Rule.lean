import Stratagem.Proofs.Rewriting.Folding
import Stratagem.Proofs.Word.Term

/-!
# The rules keep the value of terms over bit-vectors

The rules for connectives do so in every logic, since different literals have different values here.
The rules for numbers do not apply. An operator on literals is carried out; with other arguments, an
operator on bit-vectors only has a result if an argument is neutral or absorbing, if both arguments
are equal, if it undoes the operator below it, or if the whole of a bit-vector is extracted.
-/
namespace Stratagem

open Terms Rule

variable {s after : Store} {K : Constants} {I : BitAssignment} {config : SimplifierConfig}
  {t a b : TermId} {sort : TermSort} {d e : Datum} {op : Op} {args : List TermId} {w : ℕ}
  {x y : BitVec w}

/-- A truth value or a bit-vector among the values that literals stand for. -/
def Datum.scalar : Datum → Scalar
  | truth p => .truth p
  | word w x => .word w x

/-- A term with the value of a bit-vector literal is a literal. -/
theorem Store.isValue_of_bitVec? (found : s.bitVec? t ≠ none) : s.isValue t = true := by
  unfold bitVec? at found
  unfold isValue
  split at found
  · next head => rw [head]; rfl
  · exact absurd rfl found

namespace Store.Carries

/-- A literal stands for the value that it carries. -/
theorem literal (known : s.Carries K I t sort d) (value : s.isValue t = true) :
    s.Literal d.scalar t := by
  obtain ⟨fits, _, rfl⟩ := known.of_view rfl
  refine ⟨known.sorted.inside, ?_⟩
  have node : s.node t = ⟨s.op t, s.args t, sort⟩ := by rw [← known.sort_eq]; rfl
  have reduced := known.narrow.here.reduced
  change (s.op t).isValue = true at value
  change s.BitFits K sort (s.op t) (s.args t) at fits
  rw [node]
  change _ = ((s.op t).compute I sort ((s.args t).map (s.datum I))).scalar.literal
  generalize s.op t = op, s.args t = args at fits value reduced
  cases op <;> cases value <;> cases args <;> cases fits
  · rfl
  · next value w =>
    have same : (BitVec.ofNat w value).toNat = value := Nat.mod_eq_of_lt (reduced value w rfl)
    rw [Op.compute, Datum.scalar, Scalar.literal, same]

/-- The literal of a value carries it. -/
theorem of_literal (literal : s.Literal d.scalar t) (typed : d.HasSort sort)
    (width : ∀ w, sort = .bitVec w → w < 2 ^ 32) : s.Carries K I t sort d := by
  match d, sort, typed with
  | .truth p, .bool, _ => exact literal.eq_ofBool ▸ carries_ofBool s p
  | .word w x, .bitVec _, rfl => exact carries_of_literal literal.inside literal.node (width w rfl)

end Store.Carries

namespace Logic

/-- A rule that answers with the literal of the value of a term keeps its value. -/
theorem answers_of_gives {o : Outcome} (known : s.Carries K I t sort d)
    (gives : o.Gives after d.scalar) : (I.logic K).Answers after o sort d := by
  obtain ⟨u, rfl, literal⟩ := gives
  exact answers_of_result? rfl (.of_literal literal known.hasSort known.width)

end Logic

/-- Different literals carry different values. -/
theorem BitAssignment.separates (K : Constants) (I : BitAssignment) (s : Store) :
    (I.logic K).Separates s := by
  rintro a b sort d _ left right first second different rfl
  have here : s.Literal d.scalar a := Store.Carries.literal left first
  exact different (here.unique (Store.Carries.literal right second))

namespace Store.Carries

/-- The operation of the head of a bit-vector term on the values of its arguments gives its
value. -/
theorem operate_eq (known : s.Carries K I t sort d) (view : s.view t = (op, args))
    (word : op.isBitwise = true) :
    op.operate (args.map fun a => (s.datum I a).scalar) = some d.scalar := by
  obtain ⟨fits, each, rfl⟩ := known.of_view view
  have vector : ∀ a ∈ args, ∀ w, s.sortOf a = .bitVec w → ∃ x : BitVec w,
      s.datum I a = .word w x := fun a member w same => (same ▸ each a member).exists_word
  revert fits
  unfold BitFits
  split <;> intro fits
  case h_12 a | h_13 a =>
    obtain ⟨w, rfl, same⟩ := fits
    obtain ⟨x, value⟩ := vector a (by simp) w same
    simp [Op.operate, Op.compute, Scalar.map, Datum.scalar, value]
  case h_20 a b =>
    obtain ⟨w, v, rfl, first, second⟩ := fits
    obtain ⟨x, value⟩ := vector a (by simp) w first
    obtain ⟨y, other⟩ := vector b (by simp) v second
    simp [Op.operate, Op.compute, Datum.scalar, value, other]
  case h_21 a =>
    obtain ⟨w, rfl, same, low, high⟩ := fits
    obtain ⟨x, value⟩ := vector a (by simp) w same
    simp [Op.operate, Op.compute, Datum.scalar, value, low, high]
  case h_14 a b | h_15 a b | h_16 a b | h_17 a b | h_18 a b | h_19 a b =>
    obtain ⟨w, rfl, first, second⟩ := fits
    obtain ⟨x, value⟩ := vector a (by simp) w first
    obtain ⟨y, other⟩ := vector b (by simp) w second
    simp [Op.operate, Op.compute, Scalar.combine, Datum.scalar, value, other]
  case h_22 a b | h_23 a b | h_24 a b | h_25 a b =>
    obtain ⟨rfl, w, first, second⟩ := fits
    obtain ⟨x, value⟩ := vector a (by simp) w first
    obtain ⟨y, other⟩ := vector b (by simp) w second
    simp [Op.operate, Op.compute, Scalar.relate, Datum.scalar, value, other]
  case h_26 => exact fits.elim
  all_goals cases word

/-- A bit-vector operator on literals is carried out. -/
theorem applies (known : s.Carries K I t sort d) (view : s.view t = (op, args))
    (word : op.isBitwise = true) (literals : ∀ a ∈ args, s.isValue a = true) :
    s.Applies op (args.map fun a => (s.datum I a).scalar) d.scalar args t := by
  obtain ⟨fits, each, _⟩ := known.of_view view
  have node : s.node t = ⟨op, args, sort⟩ := by
    obtain ⟨rfl, rfl⟩ := Store.view_eq_iff.mp view
    rw [← known.sort_eq]
    rfl
  have same : d.scalar.sort = sort := by
    match d, sort, known.hasSort with
    | .truth _, .bool, _ => rfl
    | .word _ _, .bitVec _, rfl => rfl
  have other : ∀ name, op ≠ .var name := by
    rintro name rfl
    cases word
  exact {
    inside := known.sorted.inside
    node := by rw [same, node]
    built := by rw [same, fits.inferSort_eq other known.width]
    literals := List.forall₂_map_left_iff.mpr (List.forall₂_same.mpr fun a member =>
      (each a member).literal (literals a member))
    value := known.operate_eq view word }

/-- A literal among the arguments has the value that is found. -/
theorem eq_ofNat {n : ℕ} (known : s.Carries K I a (.bitVec w) (.word w x))
    (found : (s.bitVec? a).map (·.1) = some n) : x = BitVec.ofNat w n := by
  have value : s.isValue a = true := Store.isValue_of_bitVec? (by rintro none; simp [none] at found)
  rw [(known.literal value).bitVec?] at found
  obtain rfl := Option.some.inj found
  simp

/-- The width of a term of a bit-vector sort. -/
theorem bitWidth_eq (known : s.Carries K I a (.bitVec w) d) : s.bitWidth a = w := by
  rw [Store.bitWidth, known.sort_eq]
  rfl

/-- Equal terms carry equal bit-vectors. -/
theorem word_eq (left : s.Carries K I a (.bitVec w) (.word w x))
    (right : s.Carries K I b (.bitVec w) (.word w y)) (same : a = b) : x = y := by
  subst same
  simpa using left.unique right

section Shapes

variable {f : ∀ {w : ℕ}, BitVec w → BitVec w → BitVec w} {r : ∀ {w : ℕ}, BitVec w → BitVec w → Bool}

/-- An operator on one bit-vector. -/
theorem of_map {g : ∀ {w : ℕ}, BitVec w → BitVec w} (known : s.Carries K I t sort d)
    (view : s.view t = (op, [a]))
    (fits : s.BitFits K sort op [a] → ∃ w, sort = .bitVec w ∧ s.sortOf a = .bitVec w)
    (value : ∀ d, op.compute I sort [d] = d.map g) :
    ∃ w x, sort = .bitVec w ∧ s.Carries K I a (.bitVec w) (.word w x) ∧ d = .word w (g x) := by
  obtain ⟨shape, each, rfl⟩ := known.of_view view
  obtain ⟨w, rfl, same⟩ := fits shape
  have argument : s.Carries K I a (.bitVec w) _ := same ▸ each a (by simp)
  obtain ⟨x, found⟩ := argument.exists_word
  refine ⟨w, x, rfl, found ▸ argument, ?_⟩
  simp [value, found]

/-- An operator on two bit-vectors of one width. -/
theorem of_combine (known : s.Carries K I t sort d) (view : s.view t = (op, [a, b]))
    (fits : s.BitFits K sort op [a, b] →
      ∃ w, sort = .bitVec w ∧ s.sortOf a = .bitVec w ∧ s.sortOf b = .bitVec w)
    (value : ∀ d e, op.compute I sort [d, e] = d.combine f e) :
    ∃ w x y, sort = .bitVec w ∧ s.Carries K I a (.bitVec w) (.word w x) ∧
      s.Carries K I b (.bitVec w) (.word w y) ∧ d = .word w (f x y) := by
  obtain ⟨shape, each, rfl⟩ := known.of_view view
  obtain ⟨w, rfl, first, second⟩ := fits shape
  have left : s.Carries K I a (.bitVec w) _ := first ▸ each a (by simp)
  have right : s.Carries K I b (.bitVec w) _ := second ▸ each b (by simp)
  obtain ⟨x, found⟩ := left.exists_word
  obtain ⟨y, other⟩ := right.exists_word
  refine ⟨w, x, y, rfl, found ▸ left, other ▸ right, ?_⟩
  simp [value, found, other]

/-- A relation of two bit-vectors of one width. -/
theorem of_compare (known : s.Carries K I t sort d) (view : s.view t = (op, [a, b]))
    (fits : s.BitFits K sort op [a, b] →
      sort = .bool ∧ ∃ w, s.sortOf a = .bitVec w ∧ s.sortOf b = .bitVec w)
    (value : ∀ d e, op.compute I sort [d, e] = d.compare r e) :
    sort = .bool ∧ ∃ (w : ℕ) (x y : BitVec w), s.Carries K I a (.bitVec w) (.word w x) ∧
      s.Carries K I b (.bitVec w) (.word w y) ∧ d = .truth (r x y) := by
  obtain ⟨shape, each, rfl⟩ := known.of_view view
  obtain ⟨rfl, w, first, second⟩ := fits shape
  have left : s.Carries K I a (.bitVec w) _ := first ▸ each a (by simp)
  have right : s.Carries K I b (.bitVec w) _ := second ▸ each b (by simp)
  obtain ⟨x, found⟩ := left.exists_word
  obtain ⟨y, other⟩ := right.exists_word
  refine ⟨rfl, w, x, y, found ▸ left, other ▸ right, ?_⟩
  simp [value, found, other]

end Shapes

end Store.Carries

namespace BitVector

/-- A bit-vector with the value of a term answers for it. -/
theorem answers_word (known : s.Carries K I t (.bitVec w) (.word w x)) (same : x = y) :
    (I.logic K).Answers s (.done t) (.bitVec w) (.word w y) :=
  Logic.answers_of_result? rfl (same ▸ known)

/-- A truth value answers for a relation. -/
theorem answers_truth (s : Store) {p q : Bool} (same : p = q) :
    (I.logic K).Answers s (.done (ofBool p)) .bool (.truth q) :=
  Logic.answers_of_result? rfl (same ▸ carries_ofBool s p)

/-- Every literal that is built is reduced and carries its value modulo two to its width. -/
theorem mkBitVec_carries {value : ℤ} (width : w < 2 ^ 32) :
    (mkBitVec value w).Ensures s fun t after =>
      after.Carries K I t (.bitVec w) (.word w (BitVec.ofInt w value)) :=
  (mkBitVec_literal rfl).imp fun _ _ _ found => carries_of_literal found.inside found.node width

/-- A bit-vector that is built answers for one with its value. -/
theorem mkBitVec_answers {value : ℤ} (known : s.Carries K I t (.bitVec w) d)
    (same : d = .word w (BitVec.ofInt w value)) :
    (do return .done (← mkBitVec value w) : Rule Outcome).Ensures config s
      fun o after => (I.logic K).Answers after o (.bitVec w) d := by
  subst same
  exact Logic.answers_build (fun _ => rfl) (mkBitVec_carries (known.width w rfl))

/-- An operator that undoes itself keeps the value. -/
theorem reduceInvolution_answers {value : ℕ → ℕ → ℤ} (none : s.bitVec? a = none)
    (twice : ∀ b, s.view a = (op, [b]) → s.Carries K I b sort d) :
    (reduceInvolution op a value).Ensures config s
      fun o after => (I.logic K).Answers after o sort d := by
  unfold reduceInvolution
  refine ensures_peek_bind ?_
  rw [none]
  refine ensures_peek_bind ?_
  split
  · next inner b view =>
    refine ensures_pure ?_
    split
    · next same =>
      subst same
      exact Logic.answers_of_result? rfl (twice b view)
    · exact Logic.answers_nothing
  · exact Logic.answers_failed

/-- A binary operator with a neutral or absorbing literal, or with equal arguments, keeps its
value. -/
theorem simplifyBinary_answers (known : s.Carries K I t sort d) (view : s.view t = (op, [a, b])) :
    (simplifyBinary op a b ((s.bitVec? a).map (·.1)) ((s.bitVec? b).map (·.1))).Ensures config s
      fun o after => (I.logic K).Answers after o sort d := by
  unfold simplifyBinary
  refine ensures_peek_bind ?_
  dsimp only
  split
  · obtain ⟨w, x, y, rfl, left, right, rfl⟩ := known.of_combine view id fun _ _ => rfl
    refine ensures_pure ?_
    split_ifs with zero zero
    · exact answers_word left (by simp [right.eq_ofNat zero])
    · exact answers_word right (by simp [left.eq_ofNat zero])
    · exact Logic.answers_nothing
  · obtain ⟨w, x, y, rfl, left, right, rfl⟩ := known.of_combine view id fun _ _ => rfl
    refine ensures_pure ?_
    split_ifs with zero zero same
    · exact answers_word left (by simp [right.eq_ofNat zero])
    · exact answers_word right (by simp [left.eq_ofNat zero])
    · exact answers_word left (by simp [left.word_eq right same])
    · exact Logic.answers_nothing
  · obtain ⟨w, x, y, rfl, left, right, rfl⟩ := known.of_combine view id fun _ _ => rfl
    split_ifs with zero zero same
    · exact ensures_pure (answers_word left (by simp [right.eq_ofNat zero]))
    · exact ensures_pure (answers_word right (by simp [left.eq_ofNat zero]))
    · rw [left.bitWidth_eq]
      exact mkBitVec_answers known (by simp [left.word_eq right same])
    · exact Logic.answers_failed
  · obtain ⟨w, x, y, rfl, left, right, rfl⟩ := known.of_combine view id fun _ _ => rfl
    split_ifs with zero same
    · exact ensures_pure (answers_word left (by simp [right.eq_ofNat zero]))
    · rw [left.bitWidth_eq]
      exact mkBitVec_answers known (by simp [left.word_eq right same])
    · exact Logic.answers_failed
  · obtain ⟨w, x, y, rfl, left, right, rfl⟩ := known.of_combine view id fun _ _ => rfl
    refine ensures_pure ?_
    split_ifs with one one zero zero
    · exact answers_word left (by simp [right.eq_ofNat one])
    · exact answers_word right (by simp [left.eq_ofNat one])
    · exact answers_word left (by simp [left.eq_ofNat zero])
    · exact answers_word right (by simp [right.eq_ofNat zero])
    · exact Logic.answers_nothing
  · obtain ⟨w, x, y, rfl, left, right, rfl⟩ := known.of_combine view id fun _ _ => rfl
    refine ensures_pure ?_
    split_ifs with zero zero same
    · exact answers_word left (by simp [left.eq_ofNat zero])
    · exact answers_word right (by simp [right.eq_ofNat zero])
    · exact answers_word left (by simp [left.word_eq right same])
    · exact Logic.answers_nothing
  · obtain ⟨rfl, w, x, y, left, right, rfl⟩ := known.of_compare view id fun _ _ => rfl
    refine ensures_pure ?_
    split_ifs with same zero
    · exact answers_truth s (p := true) (by simp [left.word_eq right same, BitVec.ule])
    · exact answers_truth s (p := true) (by simp [left.eq_ofNat zero, BitVec.ule])
    · exact Logic.answers_nothing
  · obtain ⟨rfl, w, x, y, left, right, rfl⟩ := known.of_compare view id fun _ _ => rfl
    refine ensures_pure ?_
    split_ifs with same
    · exact answers_truth s (p := true) (by simp [left.word_eq right same, BitVec.sle])
    · exact Logic.answers_nothing
  · obtain ⟨rfl, w, x, y, left, right, rfl⟩ := known.of_compare view id fun _ _ => rfl
    refine ensures_pure ?_
    split_ifs with same
    · exact answers_truth s (p := false) (by simp [left.word_eq right same, BitVec.ult])
    · exact Logic.answers_nothing
  · obtain ⟨rfl, w, x, y, left, right, rfl⟩ := known.of_compare view id fun _ _ => rfl
    refine ensures_pure ?_
    split_ifs with same
    · exact answers_truth s (p := false) (by simp [left.word_eq right same, BitVec.slt])
    · exact Logic.answers_nothing
  · exact Logic.answers_failed

/-- A part of a bit-vector that is no literal keeps its value. -/
theorem reduceExtract_answers {high low : ℕ} (known : s.Carries K I t sort d)
    (view : s.view t = (.bvExtract high low, [a])) (none : s.bitVec? a = none) :
    (reduceExtract high low a).Ensures config s
      fun o after => (I.logic K).Answers after o sort d := by
  obtain ⟨⟨w, rfl, same, below, inside⟩, each, rfl⟩ := known.of_view view
  have argument : s.Carries K I a (.bitVec w) _ := same ▸ each a (by simp)
  obtain ⟨x, found⟩ := argument.exists_word
  rw [found] at argument
  unfold reduceExtract
  refine ensures_peek_bind ?_
  rw [none]
  refine ensures_peek_bind (ensures_pure ?_)
  rw [argument.bitWidth_eq]
  split_ifs with whole
  · obtain ⟨rfl, all⟩ := whole
    -- No width is above that of the bit-vector, so the position is not wrapped around.
    have width := argument.width _ rfl
    rw [TermSort.wordWidth, Nat.mod_eq_of_lt (by omega)] at all
    subst all
    have same : x.extractLsb high 0 = x := by
      apply BitVec.eq_of_toNat_eq
      rw [BitVec.extractLsb_toNat, Nat.shiftRight_zero]
      exact Nat.mod_eq_of_lt x.isLt
    refine Logic.answers_of_result? rfl ?_
    simp only [List.map_cons, List.map_nil, found, Op.compute, Datum.extract_word, same]
    exact argument
  · exact Logic.answers_nothing

/-- Nothing but an operator on bit-vectors is carried out on literals. -/
theorem foldBinary_of_other {m n : ℕ} (other : op.isBitwise = false) :
    foldBinary op m n w = return .failed := by
  cases op <;> first | rfl | cases other

/-- The rules for bit-vectors keep the value of a term unless it is an operator on literals. -/
theorem reduce_answers (known : s.Carries K I t sort d)
    (partly : (s.op t).isBitwise = true → ∃ a ∈ s.args t, s.bitVec? a = none) :
    (reduce t).Ensures config s fun o after => (I.logic K).Answers after o sort d := by
  have some {op : Op} {args : List TermId} (view : s.view t = (op, args))
      (word : op.isBitwise = true) : ∃ a ∈ args, s.bitVec? a = none := by
    obtain ⟨rfl, rfl⟩ := Store.view_eq_iff.mp view
    exact partly word
  unfold reduce
  refine ensures_peek_bind ?_
  split
  · next a view =>
    have none : s.bitVec? a = none := by simpa using some view rfl
    refine reduceInvolution_answers none fun b inner => ?_
    obtain ⟨w, x, rfl, outer, rfl⟩ := known.of_map view id fun _ => rfl
    obtain ⟨_, y, same, argument, value⟩ := outer.of_map inner id fun _ => rfl
    obtain rfl := TermSort.bitVec.inj same
    obtain rfl : x = ~~~y := by simpa using value
    simpa using argument
  · next a view =>
    have none : s.bitVec? a = none := by simpa using some view rfl
    refine reduceInvolution_answers none fun b inner => ?_
    obtain ⟨w, x, rfl, outer, rfl⟩ := known.of_map view id fun _ => rfl
    obtain ⟨_, y, same, argument, value⟩ := outer.of_map inner id fun _ => rfl
    obtain rfl := TermSort.bitVec.inj same
    obtain rfl : x = -y := by simpa using value
    simpa using argument
  · next a b view =>
    have none : s.bitVec? a = none ∨ s.bitVec? b = none := by simpa using some view rfl
    refine ensures_peek_bind (ensures_peek_bind ?_)
    split
    · simp_all
    · exact Logic.answers_failed
  · next high low a view =>
    have none : s.bitVec? a = none := by simpa using some view rfl
    exact reduceExtract_answers known view none
  · next op a b _ view =>
    unfold reduceBinary
    refine ensures_peek_bind (ensures_peek_bind ?_)
    split
    · next first second =>
      cases word : op.isBitwise with
      | false =>
        rw [foldBinary_of_other word]
        exact Logic.answers_failed
      | true =>
        obtain ⟨u, member, none⟩ := some view word
        simp_all
    · exact simplifyBinary_answers known view
  · exact Logic.answers_failed

end BitVector

/-- A term over booleans and bit-vectors is no number. -/
theorem Store.BitSorted.isArith_eq (sorted : s.BitSorted K t) : s.isArith t = false := by
  have typed := sorted.hasSort (I := ⟨fun _ => false, fun _ w => 0⟩)
  unfold Store.isArith
  generalize s.sortOf t = sort, s.datum _ t = d at typed
  cases d <;> cases sort <;> first | rfl | exact typed.elim

namespace Arithmetic

/-- No rule for numbers applies to a term over booleans and bit-vectors. -/
theorem reduceHead_silent (sorted : s.BitSorted K t) :
    (reduceHead t).Ensures config s fun o _ => o = .failed := by
  have fits {op : Op} {args : List TermId} (view : s.view t = (op, args)) :
      s.BitFits K (s.sortOf t) op args := (sorted.of_view view).1
  unfold reduceHead
  refine ensures_peek_bind ?_
  split
  case h_12 a b view =>
    have left : s.BitSorted K a := (sorted.of_view view).2.1 a (by simp)
    refine ensures_peek_bind ?_
    rw [left.isArith_eq]
    exact ensures_pure rfl
  case h_18 op a _ _ _ _ _ _ view =>
    have fits := fits view
    split <;> first | exact fits.elim | exact ensures_pure rfl
  case h_19 => exact ensures_pure rfl
  all_goals
    next view => exact (fits view).elim

end Arithmetic

namespace Rewriting

/-- The rules keep the sort and the value of a term. -/
theorem reduce_answers (known : s.Carries K I t sort d) :
    (reduce t).Ensures config s fun o after => (I.logic K).Answers after o sort d := by
  by_cases folds : (s.op t).isBitwise = true ∧ ∀ a ∈ s.args t, s.bitVec? a ≠ none
  · obtain ⟨word, literals⟩ := folds
    have values : ∀ a ∈ s.args t, s.isValue a = true := fun a member =>
      Store.isValue_of_bitVec? (literals a member)
    exact (reduce_bitwise word (known.applies rfl word values)).imp
      fun o after _ gives => Logic.answers_of_gives known gives
  · push Not at folds
    refine reduceBy_ensures (fun _ _ => Logic.answers_nothing) _ fun family member now grown => ?_
    have later := known.mono grown
    simp only [List.mem_cons, List.not_mem_nil, or_false] at member
    obtain rfl | rfl | rfl := member
    · exact Logic.reduce_answers (L := I.logic K) (fun _ => I.separates K now) later
    · refine Arithmetic.reduce_ensures ((Arithmetic.reduceHead_silent later.sorted).imp ?_)
      rintro o after _ rfl
      exact Logic.answers_nothing
    · have inside := known.sorted.inside
      refine BitVector.reduce_answers (known.mono grown) fun word => ?_
      rw [grown.op_eq inside] at word
      obtain ⟨a, member, none⟩ := folds word
      refine ⟨a, by rwa [grown.args_eq inside], ?_⟩
      rwa [Store.bitVec?, grown.op_eq ((Store.lt_of_mem_args member).trans inside)]

end Rewriting

end Stratagem
