import Stratagem.Proofs.BitBlast.Meaning

/-!
# Bit-vectors spelled out by their bits

The names of the bits of different constants are different, so truth values for the bits can be
read off any values of the constants: an assignment can be spelled out. The equation that ties a
term to its bits says that the term is the bit-vector that the bits spell.
-/
namespace Stratagem

open ModelConverter (numberOf)

namespace Blaster

/-- Two lists that are marked at the end by a character that does not stand after the mark. -/
theorem append_mark_inj {mark : Char} {xs ys as bs : List Char} (first : mark ∉ as)
    (second : mark ∉ bs) (same : xs ++ mark :: as = ys ++ mark :: bs) : xs = ys ∧ as = bs := by
  rcases List.append_eq_append_iff.mp same with ⟨rest, rfl, shape⟩ | ⟨rest, rfl, shape⟩
  · cases rest with
    | nil => simpa using shape
    | cons c rest =>
      obtain ⟨rfl, tail⟩ := List.cons.inj shape
      exact absurd (by simp [tail]) first
  · cases rest with
    | nil => simpa using shape.symm
    | cons c rest =>
      obtain ⟨rfl, tail⟩ := List.cons.inj shape
      exact absurd (by simp [tail]) second

/-- The text of a number is that of its digits. -/
theorem digits_toString (i : ℕ) : (toString i).toList = Nat.toDigits 10 i := Nat.toList_repr

/-- The digits of a number have no mark. -/
theorem mark_not_mem_digits (i : ℕ) : '!' ∉ (toString i).toList := by
  intro member
  rw [digits_toString] at member
  cases Nat.isDigit_of_mem_toDigits (by decide) (by decide) member

/-- The name of a bit determines the constant and the position. -/
theorem bitName_inj {x y : String} {i j : ℕ}
    (same : x ++ "!" ++ toString i = y ++ "!" ++ toString j) : x = y ∧ i = j := by
  have lists : x.toList ++ '!' :: (toString i).toList = y.toList ++ '!' :: (toString j).toList := by
    simpa [String.toList_append] using congrArg String.toList same
  obtain ⟨names, numbers⟩ :=
    append_mark_inj (mark_not_mem_digits i) (mark_not_mem_digits j) lists
  refine ⟨String.toList_injective names, ?_⟩
  rw [digits_toString, digits_toString] at numbers
  have values := congrArg (Nat.ofDigitChars 10 · 0) numbers
  have ten : 1 < 10 ∧ 10 ≤ 10 := by decide
  rwa [Nat.ofDigitChars_toDigits ten.1 ten.2, Nat.ofDigitChars_toDigits ten.1 ten.2] at values

/-- A name is that of a bit. -/
theorem mem_bitNames {n x : String} {w : ℕ} :
    n ∈ bitNames x w ↔ ∃ i < w, n = x ++ "!" ++ toString i := by
  simp only [bitNames, List.mem_map, List.mem_range, eq_comm]

/-- Bits of different constants have different names. -/
theorem eq_of_mem_bitNames {n x y : String} {w v : ℕ} (first : n ∈ bitNames x w)
    (second : n ∈ bitNames y v) : x = y := by
  obtain ⟨i, _, rfl⟩ := mem_bitNames.mp first
  obtain ⟨j, _, same⟩ := mem_bitNames.mp second
  exact (bitName_inj same).1

end Blaster

namespace BitAssignment

open Blaster Classical

/-- The truth values of an assignment, where the bits of some constants have those that the values
of the constants give them. -/
noncomputable def spelled (I : BitAssignment) (P : String → ℕ → Prop) (n : String) : Bool :=
  if ∃ x w, P x w ∧ n ∈ bitNames x w then
    decide (∃ x w i, P x w ∧ i < w ∧ n = x ++ "!" ++ toString i ∧ (I.word x w).getLsbD i = true)
  else I.truth n

variable {I : BitAssignment} {P : String → ℕ → Prop} {x : String} {w : ℕ}

/-- A name that is not that of a bit keeps its truth value. -/
theorem spelled_of_not {n : String} (other : ∀ x w, P x w → n ∉ bitNames x w) :
    I.spelled P n = I.truth n := by
  unfold spelled
  rw [if_neg]
  rintro ⟨x, w, holds, member⟩
  exact other x w holds member

/-- The bits of a constant that is spelled out are those of its value, if the constant has one
width. -/
theorem map_spelled (single : ∀ v, P x v → v = w) (holds : P x w) :
    (bitNames x w).map (I.spelled P) = digits (I.word x w) := by
  unfold digits bitNames
  rw [List.map_map]
  apply List.map_congr_left
  intro i member
  have below : i < w := List.mem_range.mp member
  show I.spelled P (x ++ "!" ++ toString i) = _
  unfold spelled
  rw [if_pos ⟨x, w, holds, mem_bitNames.mpr ⟨i, below, rfl⟩⟩]
  rw [Bool.eq_iff_iff, decide_eq_true_iff]
  constructor
  · rintro ⟨y, v, j, known, _, same, bit⟩
    obtain ⟨rfl, rfl⟩ := bitName_inj same
    obtain rfl := single v known
    exact bit
  · intro bit
    exact ⟨x, w, i, holds, below, rfl, bit⟩

/-- A constant that is spelled out keeps its value. -/
theorem word_ofBits_spelled (single : ∀ v, P x v → v = w) (holds : P x w) :
    (ofBits (I.spelled P)).word x w = I.word x w := by
  apply digits_inj.mp
  rw [digits_ofBits, map_spelled single holds]

/-- The bits of a constant that is not spelled out keep their truth values. -/
theorem map_spelled_of_not (other : ∀ v, ¬P x v) :
    (bitNames x w).map (I.spelled P) = (bitNames x w).map I.truth := by
  apply List.map_congr_left
  intro n member
  apply spelled_of_not
  intro y v holds inside
  rw [eq_of_mem_bitNames member inside] at other
  exact other v holds

end BitAssignment

namespace Circuit

open Terms

variable {K : Constants} {I : BitAssignment} {s : Store} {on off low c a b t : TermId}
  {sort : TermSort} {d e : Datum} {p r : Bool} {ps : List Bool} {bits : Bits} {v w : ℕ}

/-- The choice between two terms of one sort. -/
theorem mux_computes (condition : s.Computes K I c .bool (.truth r)) (yes : s.Computes K I a sort d)
    (no : s.Computes K I b sort e) :
    (Gate.mux c a b).Ensures s fun t after => after.Computes K I t sort (if r then d else e) := by
  have reading : (I.reading K).Bit s c r := condition
  unfold Gate.mux
  by_cases first : c = Store.trueId ∨ a = b
  · rw [if_pos first]
    have same : (if r then d else e) = d := by
      rcases first with literal | same
      · rw [(I.reading K).eq_true reading literal, if_pos rfl]
      · rw [← yes.datum_eq, ← no.datum_eq, same, ite_self]
    rw [same]
    exact ensures_pure yes
  · rw [if_neg first]
    by_cases second : c = Store.falseId
    · rw [if_pos second, (I.reading K).eq_false reading second, if_neg Bool.false_ne_true]
      exact ensures_pure no
    · rw [if_neg second]
      exact mkIte_computes condition yes no

/-- A literal. -/
theorem mkBitVec_computes (n : ℕ) :
    (mkBitVec (Int.ofNat n) w).Ensures s fun t after =>
      after.Computes K I t (.bitVec w) (.word w (BitVec.ofNat w n)) := by
  have fits : s.BitFits K (.bitVec w) (.bitVec (Int.ofNat n % Int.ofNat (Nat.pow 2 w)).toNat w) [] :=
    rfl
  apply mkApp_computes fits nofun rfl
  have value : (Int.ofNat n % Int.ofNat (Nat.pow 2 w)).toNat = n % 2 ^ w := rfl
  rw [value, Op.compute]
  congr 1
  apply BitVec.eq_of_toNat_eq
  simp

/-- The literals of one bit. -/
structure Switches (K : Constants) (I : BitAssignment) (s : Store) (on off : TermId) : Prop where
  /-- The bit one. -/
  on : s.Computes K I on (.bitVec 1) (.word 1 (BitVec.ofNat 1 1))
  /-- The bit zero. -/
  off : s.Computes K I off (.bitVec 1) (.word 1 (BitVec.ofNat 1 0))

/-- The bit-vector of a bit has that bit. -/
theorem bitVecOfBit_computes (switches : Switches K I s on off)
    (bit : s.Computes K I c .bool (.truth p)) :
    (bitVecOfBit on off c).Ensures s fun t after => ∃ x : BitVec 1, digits x = [p] ∧
      after.Computes K I t (.bitVec 1) (.word 1 x) := by
  apply (mux_computes bit switches.on switches.off).imp
  intro t after _ built
  cases p with
  | true => exact ⟨_, by decide, built⟩
  | false => exact ⟨_, by decide, built⟩

/-- The concatenation of bits above a low part has the bits of the low part and then these. -/
theorem concatOver_computes {x : BitVec v} (values : (I.reading K).Bits s bits ps)
    (switches : Switches K I s on off) (known : s.Computes K I low (.bitVec v) (.word v x))
    (small : v + ps.length < 4294967296) :
    (concatOver on off low bits).Ensures s fun t after => ∃ (u : ℕ) (y : BitVec u),
      digits y = digits x ++ ps ∧ after.Computes K I t (.bitVec u) (.word u y) := by
  induction bits generalizing s low v ps with
  | nil =>
    cases values
    exact ensures_pure ⟨v, x, by simp, known⟩
  | cons bit rest tail =>
    obtain ⟨p, ps, first, others, rfl⟩ := List.forall₂_cons_left_iff.mp values
    rw [List.length_cons] at small
    unfold concatOver
    apply ensures_bind (bitVecOfBit_computes switches first)
    rintro high middle grown ⟨y, digit, built⟩
    have known := known.mono grown
    have sum : middle.inferSort .bvConcat [high, low] = .bitVec (1 + v) := by
      simp only [Store.inferSort, Store.bitWidth, List.map_cons, List.map_nil, built.sort_eq,
        known.sort_eq, TermSort.width?, List.foldl_cons, List.foldl_nil, Option.getD_some]
      rw [TermSort.wordWidth, Nat.mod_eq_of_lt (by omega), Nat.zero_add]
    have fits : middle.BitFits K (.bitVec (1 + v)) .bvConcat [high, low] :=
      ⟨1, v, rfl, built.sort_eq, known.sort_eq⟩
    have joined : (mkApp .bvConcat [high, low]).Ensures middle fun t after =>
        after.Computes K I t (.bitVec (1 + v)) (.word (1 + v) (y ++ x)) := by
      apply mkApp_computes fits (by simp [built.sorted, known.sorted]) sum
      simp [Op.compute, built.datum_eq, known.datum_eq]
    apply ensures_bind joined
    intro joint after more computes
    have later := grown.trans more
    apply (tail (Reading.Bits.mono others later) ⟨switches.on.mono later, switches.off.mono later⟩
      computes (by omega)).imp
    rintro t last _ ⟨u, z, digit', result⟩
    refine ⟨u, z, ?_, result⟩
    rw [digit', digits_append, digit, List.append_assoc]
    rfl

/-- The equation that ties a bit-vector to bits says that these are its bits; there is none for a
bit-vector without bits. -/
theorem link?_computes {x : BitVec w} (values : (I.reading K).Bits s bits ps)
    (known : s.Computes K I t (.bitVec w) (.word w x)) (length : ps.length = w)
    (small : w < 4294967296) :
    (link? t bits).Ensures s fun found after => (found = none → digits x = ps) ∧
      ∀ link, found = some link → after.Computes K I link .bool (.truth (decide (digits x = ps))) := by
  unfold link?
  apply ensures_bind (mkBitVec_computes (K := K) (I := I) 1)
  intro on s₁ grown₁ on₁
  apply ensures_bind (mkBitVec_computes (K := K) (I := I) 0)
  intro off s₂ grown₂ off₂
  have switches : Switches K I s₂ on off := ⟨on₁.mono grown₂, off₂⟩
  have values := Reading.Bits.mono values (grown₁.trans grown₂)
  cases values with
  | nil =>
    apply ensures_pure
    refine ⟨fun _ => ?_, (by simp)⟩
    apply List.eq_nil_of_length_eq_zero
    rw [length_digits, ← length, List.length_nil]
  | @cons bit p rest ps first others =>
    apply ensures_bind (bitVecOfBit_computes switches first)
    rintro low s₃ grown₃ ⟨y, digit, built⟩
    rw [List.length_cons] at length
    have others := Reading.Bits.mono others grown₃
    have later : Switches K I s₃ on off := ⟨switches.on.mono grown₃, switches.off.mono grown₃⟩
    apply ensures_bind (concatOver_computes others later built (by omega))
    rintro value s₄ grown₄ ⟨u, z, spelled, computes⟩
    rw [digit, List.singleton_append] at spelled
    have width : u = w := by
      rw [← length_digits z, spelled, List.length_cons, length]
    subst width
    have known := known.mono (((grown₁.trans grown₂).trans grown₃).trans grown₄)
    have fits : s₄.BitFits K .bool .eq [t, value] :=
      ⟨rfl, computes.sort_eq.trans known.sort_eq.symm⟩
    have equation : (mkEq t value).Ensures s₄ fun link after =>
        after.Computes K I link .bool (.truth (decide (digits x = p :: ps))) := by
      apply mkApp_computes fits (by simp [known.sorted, computes.sorted]) rfl
      simp only [List.map_cons, List.map_nil, known.datum_eq, computes.datum_eq, Op.compute]
      congr 1
      rw [decide_eq_decide, ← spelled, digits_inj]
      simp
    apply ensures_bind equation
    intro link last _ result
    apply ensures_pure
    refine ⟨(by simp), ?_⟩
    rintro _ ⟨⟩
    exact result

end Circuit

end Stratagem
