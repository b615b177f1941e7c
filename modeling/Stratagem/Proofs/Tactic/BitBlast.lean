import Stratagem.Proofs.BitBlast.Blaster
import Stratagem.Proofs.BitBlast.Spelling
import Stratagem.Proofs.BitBlast.Work
import Stratagem.Proofs.Converter.Bits
import Stratagem.Proofs.Goal
import Stratagem.Tactic.BitBlast

/-!
# Bit-blasting keeps satisfiability

A goal over boolean and bit-vector constants is satisfiable if and only if the encoded goal is, and
a model of the encoded goal becomes one of the goal, as long as no boolean constant of the goal has
the name of a bit and no name stands for bit-vectors of two widths: bits are named after their
constants and are not made new.
-/
namespace Stratagem

open BitAssignment (ofBits)
open ModelConverter (numberOf)

/-- The bits of the constants are no constants themselves and belong to one constant each, and
widths are those of machine words. -/
structure Constants.Apart (L : Constants) : Prop where
  /-- No boolean constant has the name of a bit. -/
  bits : ∀ x w n, L x (.bitVec w) → n ∈ Blaster.bitNames x w → ¬L n .bool
  /-- A name stands for bit-vectors of one width. -/
  widths : ∀ x w v, L x (.bitVec w) → L x (.bitVec v) → v = w
  /-- Widths are small. -/
  small : ∀ x w, L x (.bitVec w) → w < 4294967296

/-- Formulas over any constants with their truth values under an assignment. -/
abbrev BitAssignment.full (I : BitAssignment) : Reading := I.reading .all

namespace Goal

/-- The formulas of a goal are well-sorted formulas over given constants. -/
def Over (L : Constants) (s : Store) (g : Goal) : Prop :=
  ∀ e ∈ g.entries, s.BitSorted L e.formula ∧ s.sortOf e.formula = .bool

variable {L : Constants} {s : Store} {g : Goal}

/-- A well-sorted formula has a truth value under every assignment. -/
theorem full_bit {f : TermId} (sorted : s.BitSorted L f) (bool : s.sortOf f = .bool)
    (I : BitAssignment) : I.full.Bit s f (s.datum I f).holds :=
  .formula (sorted.widen fun _ _ _ => trivial) bool

/-- A goal of well-sorted formulas has truth values under every assignment. -/
theorem Over.justified (posed : g.Over L s) (lawful : g.Lawful) (I : BitAssignment) :
    g.Justified I.full .none s where
  toLawful := lawful
  entries e member := by
    obtain ⟨sorted, bool⟩ := posed e member
    exact ⟨_, full_bit sorted bool I, fun _ _ _ _ => trivial, False.elim⟩

/-- The conjuncts of a well-sorted formula are over the same constants. -/
theorem flatten_sorted {f : TermId} {proof : Option Proof} (sorted : s.BitSorted L f)
    (bool : s.sortOf f = .bool) : (flatten f proof).Ensures s fun parts after =>
      ∀ part ∈ parts, after.BitSorted L part.1 := by
  have value : ((ofBits fun _ => false).reading L).Bit s f _ := .formula sorted bool
  apply (flatten_bits value).imp
  rintro parts after _ ⟨ps, bits, _⟩ part member
  obtain ⟨_, _, bit⟩ := exists_of_forall₂ bits member
  exact bit.sorted

/-- A goal is satisfied by assignments that agree on its constants. -/
theorem Over.satisfied_congr (posed : g.Over L s) {I J : BitAssignment}
    (agree : ∀ name sort, L name sort → sort = .bool ∨ (∃ w, sort = .bitVec w) →
      I.constant name sort = J.constant name sort) (satisfied : g.Satisfied I.full s) :
    g.Satisfied J.full s := by
  intro e member
  have bit := satisfied e member
  refine ⟨bit.sorted, bit.sort_eq, ?_⟩
  rw [← (posed e member).1.datum_congr agree, bit.datum_eq]

end Goal

namespace BlastWork.FormulaBit

variable {L : Constants} {w : BlastWork} {s : Store} {f encoding : TermId}

/-- An encoding is a formula over the constants of encodings. -/
theorem formula (known : w.FormulaBit s f encoding) (sorted : s.BitSorted L f)
    (bool : s.sortOf f = .bool) :
    s.BitSorted (w.vocabulary s L) encoding ∧ s.sortOf encoding = .bool := by
  have bit := known L sorted (fun _ => false) _ (sorted.datum_truth bool)
  exact ⟨bit.sorted, bit.sort_eq⟩

/-- An encoding has the truth value of the formula if constants have the values of their bits. -/
theorem bit (known : w.FormulaBit s f encoding) (sorted : s.BitSorted L f) {truth : String → Bool}
    {p : Bool} (value : (ofBits truth).full.Bit s f p) : (ofBits truth).full.Bit s encoding p :=
  (known L sorted truth p value.datum_eq).widen fun _ _ _ => trivial

end BlastWork.FormulaBit

namespace Blaster

open Attempt BlastWork Goal

variable {L : Constants} {start s : Store} {goal g : Goal} {b : Blaster} {slot : ℕ} {e : Entry}
  {context : Context}

/-- What holds of a goal whose formulas are encoded, in a store that has grown from a given one. -/
structure Encodes (L : Constants) (start : Store) (goal g : Goal) (b : Blaster) (s : Store) :
    Prop where
  /-- The store has grown. -/
  grown : start.Extends s
  /-- The working state is orderly. -/
  orderly : b.work.Orderly L s
  /-- What is known is correct. -/
  sound : b.work.Sound s
  /-- The goals produce the same. -/
  alike : goal.Alike g
  /-- All formulas have truth values. -/
  readable : ∀ I : BitAssignment, g.Justified I.full .none s
  /-- What satisfies the goal satisfies the encoded one, if constants have the values of their
  bits. -/
  forward : ∀ truth, goal.Satisfied (ofBits truth).full start → g.Satisfied (ofBits truth).full s
  /-- What satisfies the encoded goal satisfies the goal. -/
  backward : ∀ truth, g.Satisfied (ofBits truth).full s → goal.Satisfied (ofBits truth).full s

/-- A step from an encoded goal to another that is satisfied only if that one is. -/
theorem Encodes.step {g' : Goal} {after : Store} (known : Encodes L start goal g b s)
    (grown : s.Extends after)
    (readable : ∀ I : BitAssignment, g.Alike g' ∧ g'.Justified I.full .none after)
    (forward : ∀ truth, goal.Satisfied (ofBits truth).full start →
      g'.Satisfied (ofBits truth).full after)
    (backward : ∀ truth, g'.Satisfied (ofBits truth).full after →
      g.Satisfied (ofBits truth).full after) : Encodes L start goal g' b after where
  grown := known.grown.trans grown
  orderly := known.orderly.mono grown
  sound := known.sound.mono (.refl _) grown rfl rfl rfl
  alike := known.alike.trans (readable (ofBits fun _ => false)).1
  readable I := (readable I).2
  forward := forward
  backward truth satisfied := by
    have before := (known.readable _).satisfied_of_extends grown (backward truth satisfied)
    exact (known.backward truth before).mono grown

/-- What holds of a goal whose formulas are encoded up to a slot. -/
structure EncodesTo (L : Constants) (start : Store) (goal : Goal) (slot : ℕ) (g : Goal)
    (b : Blaster) (s : Store) : Prop extends Encodes L start goal g b s where
  /-- The formulas of later slots wait. -/
  waiting : g.inconsistent = false → ∀ i, slot ≤ i → i < goal.size → g.entries[i]? = goal.entries[i]?
  /-- The formulas of earlier slots and those that were appended are over the constants of
  encodings. -/
  done : ∀ i d, g.entries[i]? = some d → i < slot ∨ goal.size ≤ i ∨ g.inconsistent = true →
    s.BitSorted (b.work.vocabulary s L) d.formula
  /-- No slot is lost. -/
  long : g.inconsistent = false → goal.size ≤ g.size

/-- What holds of an encoded goal lasts while the store grows and further formulas are encoded. -/
theorem EncodesTo.mono {b' : Blaster} {after : Store} (known : EncodesTo L start goal slot g b s)
    (grown : s.Extends after) (grows : b.work.Grows b'.work) (orderly : b'.work.Orderly L after)
    (sound : b'.work.Sound after) : EncodesTo L start goal slot g b' after where
  grown := known.grown.trans grown
  orderly := orderly
  sound := sound
  alike := known.alike
  readable I := (known.readable I).mono grown
  forward truth satisfied := (known.forward truth satisfied).mono grown
  backward truth satisfied :=
    (known.backward truth ((known.readable _).satisfied_of_extends grown satisfied)).mono grown
  waiting := known.waiting
  done i d there finished :=
    ((known.done i d there finished).mono grown).widen (vocabulary_mono grows grown)
  long := known.long

/-- A formula that is its own encoding stays in its slot. -/
theorem EncodesTo.stay (known : EncodesTo L start goal slot g b s)
    (found : g.entries[slot]? = some e)
    (sorted : s.BitSorted (b.work.vocabulary s L) e.formula) :
    EncodesTo L start goal (slot + 1) g b s where
  toEncodes := known.toEncodes
  waiting consistent i later := known.waiting consistent i (by omega)
  done i d there finished := by
    by_cases here : i = slot
    · subst here
      obtain rfl := Option.some.inj (found.symm.trans there)
      exact sorted
    · apply known.done i d there
      rcases finished with before | rest
      · exact .inl (by omega)
      · exact .inr rest
  long := known.long

/-- An encoding takes the slot of its formula. -/
theorem EncodesTo.update {encoding : TermId} {proof : Option Proof}
    (known : EncodesTo L start goal slot g b s) (found : g.entries[slot]? = some e)
    (consistent : g.inconsistent = false)
    (sorted : s.BitSorted (b.work.vocabulary s L) encoding) (bool : s.sortOf encoding = .bool)
    (same : ∀ truth p, (ofBits truth).full.Bit s e.formula p →
      (ofBits truth).full.Bit s encoding p) :
    (g.update slot ⟨encoding, proof, e.deps⟩).Ensures s fun g' after =>
      EncodesTo L start goal (slot + 1) g' b after := by
  have inside : slot < g.entries.length := (List.getElem?_eq_some_iff.mp found).1
  have member : e ∈ g.entries := List.mem_of_getElem? found
  have bit := full_bit sorted bool
  -- Under every assignment the result has truth values.
  have readable : ∀ I : BitAssignment, (g.update slot ⟨encoding, proof, e.deps⟩).Ensures s _ :=
    fun I => update_justified (known.readable I) inside (bit I) (fun _ _ _ _ => trivial) False.elim
  -- An assignment that satisfies the goal makes the encoding true.
  have forward : ∀ truth, (g.update slot ⟨encoding, proof, e.deps⟩).Ensures s fun g' after =>
      goal.Satisfied (ofBits truth).full start → g'.Satisfied (ofBits truth).full after := by
    intro truth
    apply Terms.ensures_forall
    intro satisfied
    have before := known.forward truth satisfied
    have justified := (known.readable (ofBits truth)).of_satisfied before
    apply (update_justified justified inside (same truth true (before e member))
      (fun _ _ _ _ => trivial) fun _ => rfl).imp
    exact fun g' after _ result => result.2.1.satisfied
  have parts : (flatten encoding (g.keptProof proof)).Ensures s fun parts after =>
      ∀ part ∈ parts, after.BitSorted (b.work.vocabulary s L) part.1 := flatten_sorted sorted bool
  have shape : (g.update slot ⟨encoding, proof, e.deps⟩).Ensures s _ := update_ensures parts
  apply ((Terms.ensures_forall readable).and ((Terms.ensures_forall forward).and shape)).imp
  rintro g' after grown ⟨readable, forward, outcome⟩
  have grows := BlastWork.Grows.refl b.work
  have backward : ∀ truth, g'.Satisfied (ofBits truth).full after →
      g.Satisfied (ofBits truth).full after := by
    intro truth satisfied d member
    obtain ⟨holds, others⟩ := (readable (ofBits truth)).2.2 satisfied
    obtain ⟨k, there⟩ := List.mem_iff_getElem?.mp member
    by_cases here : k = slot
    · subst here
      obtain rfl := Option.some.inj (found.symm.trans there)
      obtain ⟨p, value, _⟩ := (known.readable (ofBits truth)).entries e member
      have equal := Reading.unique _ (same truth p value) (bit (ofBits truth))
      rw [equal, holds] at value
      exact Reading.mono _ value grown
    · exact others k d here there
  have old : ∀ i d, g.entries[i]? = some d → i < slot ∨ goal.size ≤ i →
      after.BitSorted (b.work.vocabulary after L) d.formula := by
    intro i d there finished
    exact ((known.done i d there (finished.imp id .inl)).mono grown).widen
      (vocabulary_mono grows grown)
  have basis : Encodes L start goal g' b after := known.step grown
    (fun I => ⟨(readable I).1, (readable I).2.1⟩) forward backward
  rcases outcome with ⟨refuted, _⟩ | ⟨_, parts, sorted, outcome⟩
  · rw [consistent] at refuted
    cases refuted
  rcases outcome with ⟨part, _, literal, rfl⟩ | ⟨_, entries, rfl, rfl⟩
  · refine ⟨basis, nofun, fun i d there _ => ?_, nofun⟩
    obtain rfl := List.mem_singleton.mp (List.mem_of_getElem? there)
    exact (Terms.computes_ofBool (I := ofBits fun _ => false) after false).sorted
  · refine ⟨basis, fun _ i later short => ?_, fun i d there finished => ?_, fun _ => ?_⟩
    · have waiting := known.waiting consistent i (by omega) short
      have present : ∃ d, goal.entries[i]? = some d :=
        ⟨_, List.getElem?_eq_getElem short⟩
      obtain ⟨d, present⟩ := present
      rw [present] at waiting ⊢
      exact placed_of_ne (by omega) waiting
    · rcases placed_cases there with ⟨other, there⟩ | ⟨_, added⟩ | ⟨_, _, rfl⟩
      · apply old i d there
        rcases finished with before | appended | refuted
        · exact .inl (by omega)
        · exact .inr appended
        · rw [show g.inconsistent = true from refuted] at consistent
          cases consistent
      · obtain ⟨part, member, rfl⟩ := List.mem_map.mp added
        exact (sorted part member).widen (vocabulary_mono grows grown)
      · exact (Terms.computes_ofBool (I := ofBits fun _ => false) after true).sorted
    · exact (known.long consistent).trans (length_le_placed g.entries)

/-- Encoding the formula of a slot. -/
theorem visit_ensures (posed : goal.Over L start) (early : slot < goal.size)
    (known : EncodesTo L start goal slot g b s) (found : g.entries[slot]? = some e)
    (consistent : g.inconsistent = false) :
    (visit context slot e g).Ensures b s (EncodesTo L start goal (slot + 1)) fun _ _ _ => True := by
  have original : goal.entries[slot]? = some e :=
    (known.waiting consistent slot (Nat.le_refl slot) early).symm.trans found
  obtain ⟨sorted, bool⟩ := posed e (List.mem_of_getElem? original)
  unfold visit
  apply ensures_bind (check_ensures.imp (fun _ _ _ _ same => same) fun _ _ _ _ _ => trivial)
  rintro _ b s _ ⟨rfl, rfl⟩
  have correct := (encodes context (e.formula + 1)).2 e.formula b s
    (known.grown.lt_size sorted.inside) known.sound
  have tidy := (encodes_orderly L start context (e.formula + 1)).2 e.formula sorted b s
    ⟨known.grown, known.orderly⟩
  apply ensures_bind ((correct.and tidy).imp (fun _ _ _ _ both => both) fun _ _ _ _ _ => trivial)
  rintro encoding b' middle more ⟨done, grown, orderly⟩
  have later := known.mono more done.grows orderly done.sound
  have encoded := done.bit known.orderly.outside
  have sorted' := sorted.mono grown
  have result := encoded.formula sorted' ((grown.sortOf_eq sorted.inside).trans bool)
  split
  · next same => exact ensures_pure (later.stay found (same ▸ result.1))
  · apply ensures_build_bind derive_ensures
    rintro ⟨f, proof⟩ last further same
    obtain rfl : encoding = f := Eq.symm same
    have inside := result.1.inside
    have latest := later.mono further (.refl _) (orderly.mono further)
      (done.sound.mono (.refl _) further rfl rfl rfl)
    apply latest.update found consistent
    · exact (result.1.mono further).widen (vocabulary_mono (.refl _) further)
    · exact (further.sortOf_eq inside).trans result.2
    · intro truth p value
      have moved := encoded.mono (grown.lt_size sorted.inside) (.refl _) further
      exact moved.bit (sorted'.mono further) value

/-- What holds of a goal whose formulas are all encoded. -/
structure Encoded (L : Constants) (start : Store) (goal g : Goal) (b : Blaster) (s : Store) :
    Prop extends Encodes L start goal g b s where
  /-- The formulas are over the constants of encodings. -/
  posed : g.Over (b.work.vocabulary s L) s

/-- A formula of a goal that has truth values is of the boolean sort. -/
theorem Encodes.bool (known : Encodes L start goal g b s) (member : e ∈ g.entries) :
    s.sortOf e.formula = .bool := by
  obtain ⟨p, bit, _⟩ := (known.readable (ofBits fun _ => false)).entries e member
  exact bit.sort_eq

/-- The formulas of an encoded goal stay over the constants of encodings. -/
theorem Encoded.later {after : Store} (known : Encoded L start goal g b s)
    (grown : s.Extends after) (e : Entry) (member : e ∈ g.entries) :
    after.BitSorted (b.work.vocabulary after L) e.formula :=
  ((known.posed e member).1.mono grown).widen (vocabulary_mono (.refl _) grown)

/-- What holds of an encoded goal lasts while the store grows. -/
theorem Encoded.mono {after : Store} (known : Encoded L start goal g b s)
    (grown : s.Extends after) : Encoded L start goal g b after where
  toEncodes := known.toEncodes.step grown (fun I => ⟨.refl g, (known.readable I).mono grown⟩)
    (fun truth satisfied => (known.forward truth satisfied).mono grown) fun _ => id
  posed e member := ⟨known.later grown e member,
    (grown.sortOf_eq (known.posed e member).1.inside).trans (known.posed e member).2⟩

/-- Encoding the formulas of all slots. -/
theorem visitFrom_encoded (posed : goal.Over L s) (lawful : goal.Lawful) (empty : b.work = {}) :
    (visitFrom (visit context) goal.size 0 goal).Ensures b s
      (fun g b' after => Encoded L s goal g b' after) fun _ _ _ => True := by
  have begins : EncodesTo L s goal 0 goal b s := by
    refine ⟨⟨.refl s, empty ▸ orderly_empty L s, empty ▸ sound_empty s, .refl goal,
      posed.justified lawful, fun _ satisfied => satisfied, fun _ satisfied => satisfied⟩,
      fun _ _ _ _ => rfl, fun i d there finished => ?_, fun _ => Nat.le_refl _⟩
    rcases finished with before | appended | refuted
    · exact absurd before (Nat.not_lt_zero i)
    · have short := (List.getElem?_eq_some_iff.mp there).1
      exact absurd short (Nat.not_lt_of_le appended)
    · obtain ⟨d', only, literal⟩ := lawful.refuted refuted
      rw [only] at there
      obtain rfl := List.mem_singleton.mp (List.mem_of_getElem? there)
      rw [literal]
      exact (Terms.computes_ofBool (I := ofBits fun _ => false) s false).sorted
  apply (visitFrom_ensures goal.size (fun slot e g b s early known found consistent =>
    visit_ensures posed early known found consistent) goal.size 0 (Nat.zero_add _) begins).imp
  · rintro g b' after _ ⟨last, known, ended⟩
    refine ⟨known.toEncodes, fun e member => ⟨?_, known.bool member⟩⟩
    obtain ⟨i, there⟩ := List.mem_iff_getElem?.mp member
    have short : i < g.size := (List.getElem?_eq_some_iff.mp there).1
    apply known.done i e there
    rcases ended with refuted | short | rfl
    · exact .inr (.inr refuted)
    · exact .inl (by omega)
    · rcases Nat.lt_or_ge i goal.size with before | appended
      · exact .inl before
      · exact .inr (.inl appended)
  · exact fun _ _ _ _ _ => trivial

/-- Dropping redundant formulas of an encoded goal. -/
theorem Encoded.elimRedundancies (known : Encoded L start goal g b s) :
    g.elimRedundancies.Ensures s fun g' after => Encoded L start goal g' b after := by
  have readable : ∀ I : BitAssignment, g.elimRedundancies.Ensures s _ :=
    fun I => elimRedundancies_justified (known.readable I)
  have forward : ∀ truth, g.elimRedundancies.Ensures s fun g' after =>
      goal.Satisfied (ofBits truth).full start → g'.Satisfied (ofBits truth).full after := by
    intro truth
    apply Terms.ensures_forall
    intro satisfied
    have justified := (known.readable (ofBits truth)).of_satisfied (known.forward truth satisfied)
    exact (elimRedundancies_justified justified).imp fun _ _ _ result => result.2.1.satisfied
  apply ((Terms.ensures_forall readable).and ((Terms.ensures_forall forward).and
    elimRedundancies_ensures)).imp
  rintro g' after grown ⟨readable, forward, outcome⟩
  have basis : Encodes L start goal g' b after := known.step grown
    (fun I => ⟨(readable I).1, (readable I).2.1⟩) forward
    fun truth => (readable (ofBits truth)).2.2
  have old := known.later grown
  refine ⟨basis, fun e member => ⟨?_, basis.bool member⟩⟩
  rcases outcome with ⟨_, rfl⟩ | ⟨_, ⟨_, _, _, _, _, _, _, rfl⟩ | ⟨kept, among, _, rfl, _⟩⟩
  · exact old e member
  · obtain rfl := List.mem_singleton.mp member
    exact (Terms.computes_ofBool (I := ofBits fun _ => false) after false).sorted
  · exact old e (among e member).1

/-- Asserting a formula over the constants of encodings that holds if constants have the values of
their bits. -/
theorem Encoded.assertEntry {link : TermId} {proof : Option Proof}
    (known : Encoded L start goal g b s) (sorted : s.BitSorted (b.work.vocabulary s L) link)
    (bool : s.sortOf link = .bool) (holds : ∀ truth, (ofBits truth).full.Bit s link true) :
    (g.assertEntry ⟨link, proof, none⟩).Ensures s fun g' after =>
      Encoded L start goal g' b after ∧ ∀ I : BitAssignment, g'.Satisfied I.full after →
        g.Satisfied I.full after ∧ (s.datum I link).holds = true := by
  have bit := full_bit sorted bool
  have readable : ∀ I : BitAssignment, (g.assertEntry ⟨link, proof, none⟩).Ensures s _ :=
    fun I => assertEntry_justified (known.readable I) (bit I) (fun _ _ _ _ => trivial) False.elim
  have forward : ∀ truth, (g.assertEntry ⟨link, proof, none⟩).Ensures s fun g' after =>
      goal.Satisfied (ofBits truth).full start → g'.Satisfied (ofBits truth).full after := by
    intro truth
    apply Terms.ensures_forall
    intro satisfied
    have justified := (known.readable (ofBits truth)).of_satisfied (known.forward truth satisfied)
    exact (assertEntry_justified justified (holds truth) (fun _ _ _ _ => trivial)
      fun _ => rfl).imp fun _ _ _ result => result.2.1.satisfied
  have parts : (flatten link (g.keptProof proof)).Ensures s fun parts after =>
      ∀ part ∈ parts, after.BitSorted (b.work.vocabulary s L) part.1 := flatten_sorted sorted bool
  apply ((Terms.ensures_forall readable).and ((Terms.ensures_forall forward).and
    (assertEntry_ensures (e := ⟨link, proof, none⟩) parts))).imp
  rintro g' after grown ⟨readable, forward, outcome⟩
  have basis : Encodes L start goal g' b after := known.step grown
    (fun I => ⟨(readable I).1, (readable I).2.1⟩) forward
    fun truth satisfied => ((readable (ofBits truth)).2.2 satisfied).1
  have old := known.later grown
  refine ⟨⟨basis, fun e member => ⟨?_, basis.bool member⟩⟩, fun I => (readable I).2.2⟩
  rcases outcome with ⟨_, rfl⟩ | ⟨_, parts, sorted, ⟨_, _, _, rfl⟩ | ⟨_, rfl⟩⟩
  · exact old e member
  · obtain rfl := List.mem_singleton.mp member
    exact (Terms.computes_ofBool (I := ofBits fun _ => false) after false).sorted
  · rcases List.mem_append.mp member with before | added
    · exact old e before
    · obtain ⟨part, inside, rfl⟩ := List.mem_map.mp added
      exact (sorted part inside).widen (vocabulary_mono (.refl _) grown)

/-- A constant has the value that its bits spell. -/
def Linked (I : BitAssignment) (s : Store) (t : TermId) : Prop :=
  ∀ x w, s.node t = ⟨.var x, [], .bitVec w⟩ →
    digits (I.word x w) = (bitNames x w).map I.truth

/-- A constant that was replaced is a given one, and its bits are boolean constants with the names
of the bits. -/
theorem constant_nodes {c : TermId × Bits} (orderly : b.work.Orderly L s) (sound : b.work.Sound s)
    (member : c ∈ b.work.constants) : ∃ x w, s.node c.1 = ⟨.var x, [], .bitVec w⟩ ∧
      L x (.bitVec w) ∧
      List.Forall₂ (fun n u => s.node u = ⟨.var n, [], .bool⟩) (bitNames x w) c.2 := by
  obtain ⟨x, w, node, given⟩ := orderly.constants c member
  obtain ⟨name, width, var, vector, bits⟩ := sound.constants c member
  have head : s.op c.1 = .var x := congrArg Node.op node
  have sort : s.sortOf c.1 = .bitVec w := congrArg Node.sort node
  obtain rfl : x = name := Op.var.inj (head.symm.trans var)
  obtain rfl : w = width := TermSort.bitVec.inj (sort.symm.trans vector)
  exact ⟨x, w, node, given, bits⟩

/-- The boolean constants for the bits of a constant have under every assignment the truth values
of the bits. -/
theorem constant_bits {c : TermId × Bits} {x : String} {w : ℕ} (member : c ∈ b.work.constants)
    (node : s.node c.1 = ⟨.var x, [], .bitVec w⟩) (given : L x (.bitVec w))
    (bits : List.Forall₂ (fun n u => s.node u = ⟨.var n, [], .bool⟩) (bitNames x w) c.2)
    (I : BitAssignment) :
    (I.reading (b.work.vocabulary s L)).Bits s c.2 ((bitNames x w).map I.truth) := by
  have possible : ∀ n ∈ bitNames x w, b.work.vocabulary s L n .bool :=
    fun n inside => .inr ⟨c, member, x, w, node, given, inside⟩
  apply List.forall₂_map_right_iff.mpr
  apply List.Forall₂.flip
  apply ((List.forall₂_and_left _ _).mpr ⟨possible, bits⟩).imp
  rintro n u ⟨possible, node⟩
  have fits : s.BitFits (b.work.vocabulary s L) .bool (.var n) [] := ⟨possible, .inl rfl⟩
  have inside : u < s.size := Store.lt_size_of_var (congrArg Node.op node)
  exact Terms.computes_of_node (.refl s) ⟨inside, node⟩ fits nofun

/-- Asserting the equations of constants that stay beside their bits. -/
theorem assertLinks_ensures (apart : L.Apart) {pairs : List (TermId × Bits)}
    (known : Encoded L start goal g b s)
    (among : ∀ c ∈ pairs, c ∈ b.work.constants ∧ c.1 ∈ b.work.kept) :
    (assertLinks g pairs).Ensures s fun g' after => Encoded L start goal g' b after ∧
      ∀ I : BitAssignment, g'.Satisfied I.full after →
        g.Satisfied I.full after ∧ ∀ c ∈ pairs, Linked I after c.1 := by
  induction pairs generalizing g s with
  | nil => exact Terms.ensures_pure ⟨known, fun I satisfied => ⟨satisfied, nofun⟩⟩
  | cons c rest tail =>
    obtain ⟨t, bits⟩ := c
    obtain ⟨⟨member, kept⟩, others⟩ := List.forall_mem_cons.mp among
    obtain ⟨x, w, node, given, names⟩ := constant_nodes known.orderly known.sound member
    have inside : t < s.size := Store.lt_size_of_var (congrArg Node.op node)
    have fits : s.BitFits (b.work.vocabulary s L) (.bitVec w) (.var x) [] :=
      ⟨⟨given, t, kept, node⟩, .inr ⟨w, rfl⟩⟩
    have linked : ∀ I : BitAssignment, (Circuit.link? t bits).Ensures s _ := fun I =>
      Circuit.link?_computes (constant_bits member node given names I)
        (Terms.computes_of_node (.refl s) ⟨inside, node⟩ fits nofun) (by simp [bitNames])
        (apart.small x w given)
    -- An equation that holds for every later store ties the constant to its bits.
    have tie : ∀ {after : Store} (I : BitAssignment), s.Extends after →
        digits (I.word x w) = (bitNames x w).map I.truth → Linked I after t := by
      intro after I grown equal y v other
      rw [grown.node_eq inside, node] at other
      obtain ⟨rfl, rfl⟩ : x = y ∧ w = v := by simpa using other
      exact equal
    unfold assertLinks
    apply Terms.ensures_bind (Terms.ensures_forall linked)
    intro found middle grown result
    have later := known.mono grown
    cases found with
    | none =>
      apply (tail later others).imp
      rintro g' after more ⟨encoded, ties⟩
      refine ⟨encoded, fun I satisfied => ?_⟩
      obtain ⟨before, equal⟩ := ties I satisfied
      refine ⟨before, List.forall_mem_cons.mpr ⟨?_, equal⟩⟩
      exact tie I (grown.trans more) ((result I).1 rfl)
    | some link =>
      have computes := fun I => (result I).2 link rfl
      have widened := vocabulary_mono (L := L) (.refl b.work) grown
      have sorted := (computes (ofBits fun _ => false)).sorted.widen widened
      have bool := (computes (ofBits fun _ => false)).sort_eq
      have next : ∀ (proof : Option Proof) (last : Store), middle.Extends last → (do
          let g' ← g.assertEntry ⟨link, proof, none⟩
          assertLinks g' rest).Ensures last fun g' after => Encoded L start goal g' b after ∧
            ∀ I : BitAssignment, g'.Satisfied I.full after →
              g.Satisfied I.full after ∧ ∀ c ∈ (t, bits) :: rest, Linked I after c.1 := by
        intro proof last further
        have holds : ∀ truth, (ofBits truth).full.Bit last link true := by
          intro truth
          have value := (computes (ofBits truth)).widen (L := .all) fun _ _ _ => trivial
          have spelled : digits ((ofBits truth).word x w) =
            (bitNames x w).map (ofBits truth).truth := BitAssignment.digits_ofBits truth x w
          rw [decide_eq_true spelled] at value
          exact value.mono further
        apply Terms.ensures_bind ((later.mono further).assertEntry
          ((sorted.mono further).widen (vocabulary_mono (.refl _) further))
          ((further.sortOf_eq sorted.inside).trans bool) holds)
        rintro g₁ after most ⟨encoded, back⟩
        apply (tail encoded others).imp
        rintro g' final rest ⟨done, ties⟩
        refine ⟨done, fun I satisfied => ?_⟩
        obtain ⟨before, equal⟩ := ties I satisfied
        obtain ⟨first, holds⟩ := back I ((encoded.readable I).satisfied_of_extends rest before)
        refine ⟨first.mono rest, List.forall_mem_cons.mpr ⟨?_, equal⟩⟩
        apply tie I (((grown.trans further).trans most).trans rest)
        rw [further.datum_eq I sorted.inside, (computes I).datum_eq] at holds
        exact of_decide_eq_true holds
      dsimp only
      split
      · exact Terms.ensures_bind_of_all next
      · exact next none middle (.refl middle)

/-- What holds after a goal was encoded: constants that stay beside their bits are tied to them. -/
structure Blasted (L : Constants) (start : Store) (goal g : Goal) (b : Blaster) (s : Store) :
    Prop extends Encoded L start goal g b s where
  /-- Kept constants have the values of their bits. -/
  linked : ∀ I : BitAssignment, g.Satisfied I.full s →
    ∀ c ∈ b.work.constants, c.1 ∈ b.work.kept → Linked I s c.1

/-- What the run on a goal gives: one subgoal, which is the encoded goal, and a converter that
assembles the constants that were replaced. -/
theorem run_ensures (apart : L.Apart) (posed : goal.Over L s) (lawful : goal.Lawful) :
    (run context goal).Ensures b s (fun r _ after => ∃ g b', Blasted L s goal g b' after ∧
      r.goals = [g.deeper] ∧
      (goal.models = true → r.models = converter b'.work)) fun _ _ _ => True := by
  unfold run
  apply ensures_get_bind
  split
  · exact ensures_throw_bind trivial
  dsimp only
  apply ensures_modify_bind
  apply ensures_bind (visitFrom_encoded posed lawful rfl)
  intro g₁ b₁ s₁ grown₁ encoded
  apply ensures_build_bind encoded.elimRedundancies
  intro g₂ s₂ grown₂ encoded
  apply ensures_get_bind
  have finish : ∀ (g₃ : Goal) (s₃ : Store), Blasted L s goal g₃ b₁ s₃ →
      ((do
        modify fun b => cleanup { b with stats := { b.stats with steps := b₁.work.steps } }
        return { goals := [g₃.deeper]
                 models := if g₃.models then converter b₁.work else .identity }
          : Attempt Blaster TacticResult)).Ensures b₁ s₃ (fun r _ after => ∃ g b',
        Blasted L s goal g b' after ∧ r.goals = [g.deeper] ∧
        (goal.models = true → r.models = converter b'.work)) fun _ _ _ => True := by
    intro g₃ s₃ blasted
    apply ensures_modify_bind
    apply ensures_pure
    refine ⟨g₃, b₁, blasted, rfl, fun models => ?_⟩
    rw [← blasted.alike.models] at models
    dsimp only
    rw [if_pos models]
  split
  · next refuted =>
    apply ensures_pure_bind
    apply finish g₂ s₂ ⟨encoded, fun I satisfied => ?_⟩
    exact absurd satisfied ((encoded.readable I).not_satisfied refuted)
  · have among : ∀ c ∈ linked b₁.work, c ∈ b₁.work.constants ∧ c.1 ∈ b₁.work.kept := by
      intro c member
      rw [linked, encoded.orderly.applications, Array.toList_empty, List.append_nil,
        List.mem_filter] at member
      exact ⟨Array.mem_toList_iff.mp member.1, Std.HashSet.contains_iff_mem.mp member.2⟩
    apply ensures_build_bind (assertLinks_ensures apart encoded among)
    rintro g₃ s₃ grown₃ ⟨encoded', ties⟩
    apply finish g₃ s₃ ⟨encoded', fun I satisfied c member kept => ?_⟩
    apply (ties I satisfied).2 c
    rw [linked]
    apply List.mem_append_left
    rw [List.mem_filter]
    exact ⟨Array.mem_toList_iff.mpr member, Std.HashSet.contains_iff_mem.mpr kept⟩

section Assignments

/-- A constant of a name and a width was replaced by bits. -/
def Replaced (b : Blaster) (s : Store) (x : String) (w : ℕ) : Prop :=
  ∃ c ∈ b.work.constants, s.node c.1 = ⟨.var x, [], .bitVec w⟩

/-- The truth values of bits that an assignment of an encoded goal gives: those of the constants
that were not replaced are read off their values. -/
noncomputable def bitsOf (L : Constants) (b : Blaster) (s : Store) (I : BitAssignment) :
    String → Bool :=
  I.spelled fun x w => L x (.bitVec w) ∧ ¬b.Replaced s x w

variable {I : BitAssignment} {x n : String} {w : ℕ}

/-- A boolean constant of the goal keeps its truth value. -/
theorem bitsOf_constant (apart : L.Apart) (given : L n .bool) :
    bitsOf L b s I n = I.truth n :=
  BitAssignment.spelled_of_not fun x w known inside => apart.bits x w n known.1 inside given

/-- The bits of a constant that was replaced keep their truth values. -/
theorem bitsOf_replaced (apart : L.Apart) (given : L x (.bitVec w)) (replaced : b.Replaced s x w) :
    (bitNames x w).map (bitsOf L b s I) = (bitNames x w).map I.truth := by
  apply BitAssignment.map_spelled_of_not
  rintro v ⟨known, other⟩
  obtain rfl := apart.widths x w v given known
  exact other replaced

/-- A constant that was not replaced keeps its value. -/
theorem word_bitsOf (apart : L.Apart) (given : L x (.bitVec w)) (kept : ¬b.Replaced s x w) :
    (ofBits (bitsOf L b s I)).word x w = I.word x w :=
  BitAssignment.word_ofBits_spelled (fun v known => apart.widths x w v given known.1)
    ⟨given, kept⟩

/-- What satisfies the encoded goal satisfies the goal, with the bits that it gives. -/
theorem Blasted.satisfied (blasted : Blasted L start goal g b s) (apart : L.Apart)
    (satisfied : g.Satisfied I.full s) : goal.Satisfied (ofBits (bitsOf L b s I)).full s := by
  apply blasted.backward
  apply blasted.posed.satisfied_congr _ satisfied
  rintro name sort known (rfl | ⟨w, rfl⟩)
  · -- A boolean constant of the goal, or a bit of a constant that was replaced.
    have same : bitsOf L b s I name = I.truth name := by
      rcases known with given | ⟨c, member, x, w, node, given, inside⟩
      · exact bitsOf_constant apart given
      · have bits := bitsOf_replaced (I := I) apart given ⟨c, member, node⟩
        exact List.map_inj_left.mp bits name inside
    exact congrArg Datum.truth same.symm
  · obtain ⟨given, c, kept, node⟩ := known
    have same : (ofBits (bitsOf L b s I)).word name w = I.word name w := by
      by_cases replaced : b.Replaced s name w
      · obtain ⟨d, member, other⟩ := replaced
        have inside := Store.lt_size_of_var (congrArg Node.op node)
        have there := Store.lt_size_of_var (congrArg Node.op other)
        obtain rfl := Store.eq_of_node_eq there inside (other.trans node.symm)
        apply digits_inj.mp
        rw [BitAssignment.digits_ofBits, bitsOf_replaced apart given ⟨d, member, other⟩]
        exact (blasted.linked I satisfied d member kept name w other).symm
      · exact word_bitsOf apart given replaced
    exact congrArg (Datum.word w) same.symm

/-- What satisfies the goal satisfies the encoded goal, after it is spelled out. -/
theorem Blasted.exists_satisfied (blasted : Blasted L start goal g b s) (apart : L.Apart)
    (posed : goal.Over L start) (satisfied : goal.Satisfied I.full start) :
    ∃ J : BitAssignment, g.Satisfied J.full s := by
  refine ⟨ofBits (I.spelled fun x w => L x (.bitVec w)), blasted.forward _ ?_⟩
  apply posed.satisfied_congr _ satisfied
  rintro name sort given (rfl | ⟨w, rfl⟩)
  · have same : I.spelled (fun x w => L x (.bitVec w)) name = I.truth name :=
      BitAssignment.spelled_of_not fun x w known inside => apart.bits x w name known inside given
    exact congrArg Datum.truth same.symm
  · have same := BitAssignment.word_ofBits_spelled (I := I) (P := fun x w => L x (.bitVec w))
      (fun v known => apart.widths name w v given known) given
    exact congrArg (Datum.word w) same.symm

end Assignments

section Converter

/-- Without applications a model is converted by assembling the constants that were replaced. -/
theorem converter_apply {w : BlastWork} (none : w.applications = #[]) :
    (converter w).apply 0 =
      w.constants.toList.forM fun (c, digits) => ModelConverter.assemble c digits := by
  unfold converter
  rw [none]
  dsimp only
  split
  · next empty =>
    rw [Array.isEmpty_iff.mp empty]
    rfl
  · rfl

/-- The bits of the constants that were replaced are disjoint. -/
theorem disjoint_constants (apart : L.Apart) (orderly : b.work.Orderly L s)
    (sound : b.work.Sound s) : ModelConverter.Disjoint b.work.constants.toList where
  nodup := orderly.nodup
  bits c inside d there u first second := by
    obtain ⟨x, w, node, given, names⟩ :=
      constant_nodes orderly sound (Array.mem_toList_iff.mp inside)
    obtain ⟨y, v, other, also, others⟩ :=
      constant_nodes orderly sound (Array.mem_toList_iff.mp there)
    obtain ⟨n, left, named⟩ := exists_of_forall₂ names.flip first
    obtain ⟨n', right, named'⟩ := exists_of_forall₂ others.flip second
    obtain rfl : n = n' := by
      rw [named] at named'
      simpa using named'
    obtain rfl := eq_of_mem_bitNames left right
    obtain rfl := apart.widths x w v given also
    have same : c.1 = d.1 := Store.eq_of_node_eq (Store.lt_size_of_var (congrArg Node.op node))
      (Store.lt_size_of_var (congrArg Node.op other)) (node.trans other.symm)
    exact List.inj_on_of_nodup_map orderly.nodup inside there same
  constants c inside d there bit := by
    obtain ⟨x, w, node, _⟩ := constant_nodes orderly sound (Array.mem_toList_iff.mp inside)
    obtain ⟨y, v, _, _, names⟩ := constant_nodes orderly sound (Array.mem_toList_iff.mp there)
    obtain ⟨n, _, named⟩ := exists_of_forall₂ names.flip bit
    rw [node] at named
    cases named

/-- A model of the encoded goal becomes one of the goal. -/
theorem Blasted.convert (blasted : Blasted L start goal g b s) (apart : L.Apart)
    (posed : goal.Over L start) {m : Model} (within : m.Within s) (decided : m.Decided s)
    (satisfied : g.Satisfied (m.bits s).full s) :
    ((converter b.work).apply 0).Ensures m s
      (fun _ m' after => goal.Satisfied (m'.bits after).full after) fun _ _ _ => False := by
  have orderly := blasted.orderly
  have sound := blasted.sound
  rw [converter_apply orderly.applications]
  apply (ModelConverter.forM_assemble (disjoint_constants apart orderly sound)).imp
  · rintro _ m' after grown ⟨others, assembled⟩
    have before := (blasted.satisfied apart satisfied).mono grown
    have overAfter : goal.Over L after := by
      intro e member
      have known := posed e member
      have extended := blasted.grown.trans grown
      exact ⟨known.1.mono extended, (extended.sortOf_eq known.1.inside).trans known.2⟩
    apply overAfter.satisfied_congr _ before
    -- A position that is neither a constant that was replaced nor a bit keeps its value.
    have kept : ∀ k, (∀ c ∈ b.work.constants, k ≠ c.1 ∧ k ∉ c.2) → m'.get? k = m.get? k :=
      fun k foreign => others k fun c inside => foreign c (Array.mem_toList_iff.mp inside)
    rintro name sort given (rfl | ⟨w, rfl⟩)
    · have same : (m'.bits after).constant name .bool = (m.bits s).constant name .bool := by
        apply Model.bits_congr within grown _ (.inl rfl)
        intro k node
        apply kept
        intro c inside
        obtain ⟨x, w, constant, known, names⟩ := constant_nodes orderly sound inside
        have moved := node_var_mono grown constant
        refine ⟨?_, fun bit => ?_⟩
        · rintro rfl
          rw [moved] at node
          cases node
        · obtain ⟨n, spelled, named⟩ := exists_of_forall₂ names.flip bit
          have moved := node_var_mono grown named
          rw [moved] at node
          obtain rfl : n = name := by simpa using node
          exact apart.bits x w n known spelled given
      rw [same]
      exact congrArg Datum.truth (bitsOf_constant apart given)
    · have same : (m'.bits after).word name w = (ofBits (bitsOf L b s (m.bits s))).word name w := by
        by_cases replaced : b.Replaced s name w
        · obtain ⟨c, inside, node⟩ := replaced
          obtain ⟨value, found, literal⟩ := assembled c (Array.mem_toList_iff.mpr inside)
          obtain ⟨x, v, constant, _, names⟩ := constant_nodes orderly sound inside
          obtain ⟨rfl, rfl⟩ : name = x ∧ w = v := by
            rw [node] at constant
            simpa using constant
          have length : c.2.length = w := by simpa [bitNames] using names.length_eq.symm
          rw [ModelConverter.spelled, length] at literal
          rw [Model.word_bits (node_var_mono grown node) found literal]
          -- The bits have in the model the truth values that are assembled.
          have truths : (c.2.map fun u => m.get? u == some Store.trueId) =
              (bitNames name w).map (m.bits s).truth := by
            have member : List.Forall₂ (fun n u => (m.bits s).truth n =
                (m.get? u == some Store.trueId)) (bitNames name w) c.2 :=
              names.imp fun n u node => Model.truth_bits decided node
            rw [← List.forall₂_eq_eq_eq, List.forall₂_map_left_iff, List.forall₂_map_right_iff]
            exact member.flip.imp fun u n same => same.symm
          rw [truths, ← bitsOf_replaced apart given ⟨c, inside, node⟩]
          rfl
        · have same : (m'.bits after).constant name (.bitVec w) =
              (m.bits s).constant name (.bitVec w) := by
            apply Model.bits_congr within grown _ (.inr ⟨w, rfl⟩)
            intro k node
            apply kept
            intro c inside
            obtain ⟨x, v, constant, _, names⟩ := constant_nodes orderly sound inside
            have moved := node_var_mono grown constant
            refine ⟨?_, fun bit => ?_⟩
            · rintro rfl
              rw [moved] at node
              obtain ⟨rfl, rfl⟩ : x = name ∧ v = w := by simpa using node
              exact replaced ⟨c, inside, constant⟩
            · obtain ⟨n, _, named⟩ := exists_of_forall₂ names.flip bit
              rw [node_var_mono grown named] at node
              cases node
          rw [word_bitsOf apart given replaced]
          exact eq_of_heq (Datum.word.inj same).2
      exact congrArg (Datum.word w) same.symm
  · exact fun _ _ _ _ failure => failure

end Converter

/-- A goal over constants that are apart is satisfiable if and only if the encoded one is, and a
model of the encoded goal is converted to one of the goal. -/
theorem blast_equisatisfiable (apart : L.Apart) (posed : goal.Over L s) (lawful : goal.Lawful)
    {r : TacticResult} {b' : Blaster} {after : Store}
    (applied : ((run context goal).runFrom b).run s = ((.ok r, b'), after)) :
    ∃ subgoal, r.goals = [subgoal] ∧
      ((∃ I : BitAssignment, goal.Satisfied I.full s) ↔
        ∃ I : BitAssignment, subgoal.Satisfied I.full after) ∧
      (goal.models = true → ∀ m : Model, m.Within after → m.Decided after →
        subgoal.Satisfied (m.bits after).full after →
        ∃ m' last, ((r.models.apply 0).runFrom m).run after = ((.ok (), m'), last) ∧
          goal.Satisfied (m'.bits last).full last) := by
  obtain ⟨g, _, blasted, only, models⟩ := (run_ensures apart posed lawful).of_ok applied
  refine ⟨g.deeper, only, ⟨?_, ?_⟩, fun asked m within decided satisfied => ?_⟩
  · intro ⟨_, satisfied⟩
    exact blasted.exists_satisfied apart posed satisfied
  · intro ⟨I, satisfied⟩
    have later := blasted.satisfied apart satisfied
    exact ⟨_, (posed.justified lawful _).satisfied_of_extends blasted.grown later⟩
  · rw [models asked]
    obtain ⟨_, m', last, converted, result⟩ :=
      (blasted.convert apart posed within decided satisfied).exists_ok
    exact ⟨m', last, converted, result⟩

/-- The constants of two bits with the names `x` and `y`. -/
def twoWords : Constants := fun name sort => (name = "x" ∨ name = "y") ∧ sort = .bitVec 2

/-- The bits of two constants are no constants. -/
theorem twoWords_apart : twoWords.Apart where
  bits := by
    rintro x w n _ _ ⟨_, absurd⟩
    cases absurd
  widths := by
    rintro x w v ⟨_, first⟩ ⟨_, second⟩
    exact TermSort.bitVec.inj (second.trans first.symm)
  small := by
    rintro x w ⟨_, sort⟩
    obtain rfl := TermSort.bitVec.inj sort
    decide

/-- A goal of one comparison is encoded, if nothing interrupts. -/
theorem run_comparison {x y f : TermId} {name other : String} {width : ℕ}
    (first : s.nodes[x]? = some ⟨.var name, [], .bitVec width⟩)
    (second : s.nodes[y]? = some ⟨.var other, [], .bitVec width⟩)
    (whole : s.nodes[f]? = some ⟨.bvUlt, [x, y], .bool⟩) :
    (run .unbounded ⟨[⟨f, none, none⟩], true, false, false, false, 0⟩).Ensures {} s
      (fun _ _ _ => True) fun _ _ _ => False := by
  obtain ⟨_, node⟩ := Store.node_of_getElem? whole
  have below : x < f := Store.lt_of_mem_args (by rw [Store.args, node]; simp)
  obtain ⟨depth, rfl⟩ := Nat.exists_eq_succ_of_ne_zero (Nat.ne_zero_of_lt below)
  have encoded : (formula .unbounded (depth + 1 + 1) (depth + 1)).Ensures (cleanup {}) s
      (fun _ _ _ => True) fun _ _ _ => False :=
    formula_comparison depth first second whole ⟨rfl, Nat.le_refl 0⟩ (by decide)
  unfold run
  apply ensures_get_bind
  rw [if_neg (by simp)]
  apply ensures_modify_bind
  have passes : (Attempt.check .unbounded : Attempt Blaster Unit).Ensures (cleanup {}) s
      (fun _ b after => b = cleanup {} ∧ after = s) fun _ _ _ => False := ⟨rfl, rfl⟩
  have visited : ∀ g, (visit .unbounded 0 ⟨depth + 1, none, none⟩ g).Ensures (cleanup {}) s
      (fun _ _ _ => True) fun _ _ _ => False := by
    intro g
    apply ensures_bind passes
    rintro _ _ _ _ ⟨rfl, rfl⟩
    apply ensures_bind encoded
    intro encoding b after _ _
    split
    · exact ensures_pure trivial
    · apply ensures_bind ensures_build_any
      intro _ _ _ _ _
      exact ensures_build_any.imp (fun _ _ _ _ _ => trivial) fun _ _ _ _ failure => failure
  have all : (visitFrom (visit .unbounded) 1 0 ⟨[⟨depth + 1, none, none⟩], true, false, false,
      false, 0⟩).Ensures (cleanup {}) s (fun _ _ _ => True) fun _ _ _ => False :=
    ensures_bind (visited _) fun _ _ _ _ _ => ensures_pure trivial
  apply ensures_bind all
  intro g b₁ s₁ _ _
  apply ensures_bind ensures_build_any
  intro g b₂ s₂ _ _
  apply ensures_get_bind
  split
  · exact ensures_pure_bind (ensures_modify_bind (ensures_pure trivial))
  · apply ensures_bind ensures_build_any
    intro _ _ _ _ _
    exact ensures_modify_bind (ensures_pure trivial)

/-- The encoding of a comparison of two constants of two bits is satisfiable, as the comparison
is. -/
theorem blast_equisatisfiable_case : ∃ (s : Store) (f : TermId) (r : TacticResult) (after : Store)
    (subgoal : Goal), s.op f = .bvUlt ∧ r.goals = [subgoal] ∧
      ∃ I : BitAssignment, subgoal.Satisfied I.full after := by
  obtain ⟨s, x, y, f, first, second, whole⟩ := exists_comparison
  obtain ⟨_, nodeX⟩ := Store.node_of_getElem? first
  obtain ⟨_, nodeY⟩ := Store.node_of_getElem? second
  obtain ⟨_, node⟩ := Store.node_of_getElem? whole
  obtain ⟨r, b', after, applied, _⟩ := (run_comparison first second whole).exists_ok
  have sorted : s.BitSorted twoWords f :=
    comparison_sorted first second whole ⟨.inl rfl, rfl⟩ ⟨.inr rfl, rfl⟩
  have bool : s.sortOf f = .bool := by rw [Store.sortOf, node]
  have posed : Over twoWords s ⟨[⟨f, none, none⟩], true, false, false, false, 0⟩ := by
    intro e member
    obtain rfl := List.mem_singleton.mp member
    exact ⟨sorted, bool⟩
  have lawful : Lawful ⟨[⟨f, none, none⟩], true, false, false, false, 0⟩ := by
    refine ⟨(by simp), fun e member => ?_⟩
    obtain rfl := List.mem_singleton.mp member
    rfl
  obtain ⟨subgoal, only, same, _⟩ := blast_equisatisfiable twoWords_apart posed lawful applied
  refine ⟨s, f, r, after, subgoal, by rw [Store.op, node], only, same.mp ?_⟩
  -- Zero is less than one.
  let I : BitAssignment := ⟨fun _ => false, fun name _ => if name = "y" then 1 else 0⟩
  have left : s.datum I x = .word 2 0 := by
    rw [Store.datum_eq, Store.op, Store.sortOf, nodeX]
    rfl
  have right : s.datum I y = .word 2 1 := by
    rw [Store.datum_eq, Store.op, Store.sortOf, nodeY]
    rfl
  have less : s.datum I f = .truth true := by
    rw [Store.datum_eq, Store.op, Store.args, node, List.map_cons, List.map_cons, left, right]
    rfl
  refine ⟨I, fun e member => ?_⟩
  obtain rfl := List.mem_singleton.mp member
  have bit := full_bit sorted bool I
  rwa [less] at bit

end Blaster

end Stratagem
