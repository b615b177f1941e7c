import Stratagem.Proofs.BitBlast.Spelling
import Stratagem.Proofs.Model

/-!
# Models assembled of bits

The assignment of truth values and bit-vectors that a model gives, and what a model becomes when
bit-vector constants are assembled of their bits one after the other: the constants have the values
that their bits spell in the model before, since no bit belongs to two constants.
-/
namespace Stratagem

namespace Model

/-- The assignment in which all constants are false or zero. -/
def zero : BitAssignment := ⟨fun _ => false, fun _ _ => 0⟩

/-- The bit-vector of a width that a value is; zero for truth values. -/
def wordOf (width : ℕ) : Datum → BitVec width
  | .word _ x => x.setWidth width
  | .truth _ => 0

/-- The assignment that a model gives; constants without a value are false or zero. -/
def bits (m : Model) (s : Store) : BitAssignment where
  truth name := ((m.constant? s name .bool).map fun value => (s.datum zero value).holds).getD false
  word name width :=
    ((m.constant? s name (.bitVec width)).map fun value => wordOf width (s.datum zero value)).getD 0

/-- Boolean constants have truth values as values. -/
def Decided (m : Model) (s : Store) : Prop :=
  ∀ k value, m.get? k = some value → s.sortOf k = .bool →
    value = Store.trueId ∨ value = Store.falseId

variable {m m' : Model} {s after : Store} {name : String} {sort : TermSort} {k : TermId} {w : ℕ}

/-- Models that agree on the positions of a constant give it the same value, also when the store
grows. -/
theorem bits_congr (within : m.Within s) (grown : s.Extends after)
    (same : ∀ k, after.node k = ⟨.var name, [], sort⟩ → m'.get? k = m.get? k)
    (sorts : sort = .bool ∨ ∃ w, sort = .bitVec w) :
    (m'.bits after).constant name sort = (m.bits s).constant name sort := by
  have equal := constant?_congr within grown same
  -- A value that is found is in the store before it grew.
  have values : ∀ value, m.constant? s name sort = some value →
      after.datum zero value = s.datum zero value := by
    intro value found
    apply grown.datum_eq
    by_cases present : ∃ k, s.node k = ⟨.var name, [], sort⟩
    · obtain ⟨k, node⟩ := present
      rw [constant?_eq_get? node] at found
      exact (within k value found).2
    · rw [constant?_eq_none fun c node => present ⟨c, node⟩] at found
      cases found
  rcases sorts with rfl | ⟨w, rfl⟩
  · simp only [BitAssignment.constant, bits, equal]
    cases found : m.constant? s name .bool with
    | none => rfl
    | some value => simp [values value found]
  · simp only [BitAssignment.constant, bits, equal]
    cases found : m.constant? s name (.bitVec w) with
    | none => rfl
    | some value => simp [values value found]

/-- The truth value of a boolean constant that is assigned a literal. -/
theorem truth_bits (decided : m.Decided s) (node : s.node k = ⟨.var name, [], .bool⟩) :
    (m.bits s).truth name = (m.get? k == some Store.trueId) := by
  have bool : s.sortOf k = .bool := congrArg Node.sort node
  simp only [bits, constant?_eq_get? node]
  cases found : m.get? k with
  | none => rfl
  | some value =>
    have literal : ∀ b, (s.datum zero (Terms.ofBool b)).holds = b := fun b => by
      rw [(Terms.computes_ofBool (K := .all) (I := zero) s b).datum_eq, Datum.holds_truth]
    rcases decided k value found bool with rfl | rfl
    · exact literal true
    · exact literal false

/-- The value of a bit-vector constant that is assigned a literal. -/
theorem word_bits {value : TermId} {n : ℕ} (node : s.node k = ⟨.var name, [], .bitVec w⟩)
    (found : m.get? k = some value) (literal : s.nodes[value]? = some ⟨.bitVec n w, [], .bitVec w⟩) :
    (m.bits s).word name w = BitVec.ofNat w n := by
  obtain ⟨_, shape⟩ := Store.node_of_getElem? literal
  have datum : s.datum zero value = .word w (BitVec.ofNat w n) := by
    rw [Store.datum_eq, Store.op, shape]
    rfl
  simp [bits, constant?_eq_get? node, found, datum, wordOf]

end Model

namespace ModelConverter

open Attempt

variable {s : Store} {m : Model}

/-- A literal is built. -/
theorem mkBitVec_getElem? (n w : ℕ) (small : n < 2 ^ w) :
    (Terms.mkBitVec (Int.ofNat n) w).Ensures s fun value after =>
      after.nodes[value]? = some ⟨.bitVec n w, [], .bitVec w⟩ := by
  have number : (Int.ofNat n % Int.ofNat (Nat.pow 2 w)).toNat = n := by
    show n % 2 ^ w = n
    exact Nat.mod_eq_of_lt small
  unfold Terms.mkBitVec
  rw [number]
  apply (Terms.mkApp_node (by simp)).imp
  rintro value after _ ⟨inside, node⟩
  rw [Store.getElem?_eq_node inside, node]
  rfl

/-- The literal that the values of bits spell in a model. -/
def spelled (m : Model) (digits : List TermId) : Node :=
  ⟨.bitVec (numberOf (digits.map fun b => m.get? b == some Store.trueId)) digits.length, [],
    .bitVec digits.length⟩

/-- Assembling a constant of its bits. -/
theorem assemble_ensures (c : TermId) (digits : List TermId) :
    (assemble c digits).Ensures m s (fun _ m' after => ∃ value,
      after.nodes[value]? = some (spelled m digits) ∧
      ∀ k, m'.get? k = if k ∈ digits then none else if k = c then some value else m.get? k)
      fun _ _ _ => False := by
  unfold assemble
  apply ensures_get_bind
  have small := numberOf_lt (digits.map fun b => m.get? b == some Store.trueId)
  rw [List.length_map] at small
  apply ensures_build_bind (mkBitVec_getElem? _ _ small)
  intro value after _ built
  refine ⟨value, built, fun k => ?_⟩
  show (digits.foldl Model.erase (m.insert c value)).get? k = _
  rw [Model.get?_foldl_erase, Model.get?_insert]

/-- No bit belongs to two constants, no constant is a bit, and each is assembled once. -/
structure Disjoint (pairs : List (TermId × List TermId)) : Prop where
  /-- Each constant is assembled once. -/
  nodup : (pairs.map Prod.fst).Nodup
  /-- No bit belongs to two constants. -/
  bits : ∀ c ∈ pairs, ∀ d ∈ pairs, ∀ u ∈ c.2, u ∈ d.2 → c = d
  /-- No constant is a bit. -/
  constants : ∀ c ∈ pairs, ∀ d ∈ pairs, c.1 ∉ d.2

/-- What assembling constants one after the other does: all other constants keep their values, and
each of these gets the value that its bits spell. -/
theorem forM_assemble {pairs : List (TermId × List TermId)} (disjoint : Disjoint pairs) :
    (pairs.forM fun (c, digits) => assemble c digits).Ensures m s (fun _ m' after =>
      (∀ k, (∀ c ∈ pairs, k ≠ c.1 ∧ k ∉ c.2) → m'.get? k = m.get? k) ∧
      ∀ c ∈ pairs, ∃ value, m'.get? c.1 = some value ∧
        after.nodes[value]? = some (spelled m c.2)) fun _ _ _ => False := by
  induction pairs generalizing m s with
  | nil =>
    apply ensures_pure
    constructor
    · exact fun _ _ => rfl
    · nofun
  | cons first rest tail =>
    obtain ⟨nodup, bits, constants⟩ := disjoint
    rw [List.map_cons, List.nodup_cons] at nodup
    obtain ⟨c, digits⟩ := first
    have here : (c, digits) ∈ (c, digits) :: rest := List.mem_cons_self ..
    have later : ∀ {d}, d ∈ rest → d ∈ (c, digits) :: rest := List.mem_cons_of_mem _
    rw [List.forM]
    apply ensures_bind (assemble_ensures c digits)
    rintro _ m₁ middle _ ⟨value, literal, found⟩
    have disjoint : Disjoint rest := ⟨nodup.2,
      fun c inside d there => bits c (later inside) d (later there),
      fun c inside d there => constants c (later inside) d (later there)⟩
    apply (tail disjoint).imp
    · rintro _ m' after grown ⟨others, assembled⟩
      -- The bits of later constants were not touched.
      have untouched : ∀ d ∈ rest, ∀ u ∈ d.2, m₁.get? u = m.get? u := by
        intro d inside u bit
        have foreign : u ∉ digits := by
          intro shared
          have same := bits _ here d (later inside) u shared bit
          exact nodup.1 (List.mem_map.mpr ⟨d, inside, by rw [← same]⟩)
        have other : u ≠ c := fun same => constants _ here d (later inside) (same ▸ bit)
        rw [found, if_neg foreign, if_neg other]
      refine ⟨fun k apart => ?_, fun d inside => ?_⟩
      · obtain ⟨first, rest⟩ := List.forall_mem_cons.mp apart
        rw [others k rest, found, if_neg first.2, if_neg first.1]
      · rcases List.mem_cons.mp inside with rfl | inside
        · refine ⟨value, ?_, grown _ _ literal⟩
          have foreign : ∀ d ∈ rest, c ≠ d.1 ∧ c ∉ d.2 := fun d inside =>
            ⟨fun same => nodup.1 (List.mem_map.mpr ⟨d, inside, same.symm⟩),
              constants _ here d (later inside)⟩
          rw [others c foreign, found, if_neg (constants _ here _ here), if_pos rfl]
        · obtain ⟨value, assigned, literal⟩ := assembled d inside
          refine ⟨value, assigned, ?_⟩
          rw [literal, spelled, spelled]
          rw [List.map_congr_left fun u bit => by rw [untouched d inside u bit]]
    · exact fun _ _ _ _ failure => failure

end ModelConverter

end Stratagem
