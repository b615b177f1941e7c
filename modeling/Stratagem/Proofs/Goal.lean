import Stratagem.Proofs.Dependency
import Stratagem.Goal
import Stratagem.Proofs.Term.Reading

/-!
# What goals say

For a reading of terms as truth values, a goal is satisfied if all its formulas are true. Its
dependencies are right if every formula is true wherever all that it depends on is assumed. Taking
a formula apart, asserting it, putting another one in its place and dropping what is redundant
keep both: what is right stays right, and a goal is satisfied only if the one before was.
-/
namespace Stratagem

open Store (Extends)

namespace DependencySet

variable {A : TermId → Prop}

/-- All that something depends on satisfies a condition. -/
def Covered (A : TermId → Prop) (deps : Option DependencySet) : Prop :=
  ∀ d ∈ deps, ∀ t ∈ d.members, A t

/-- What depends on nothing is covered. -/
@[simp] theorem covered_none : Covered A none := nofun

/-- What depends on one assumption is covered if that is. -/
@[simp] theorem covered_leaf (t : TermId) : Covered A (some (leaf t)) ↔ A t := by
  simp [Covered, leaf]

/-- A union is covered if both parts are. -/
@[simp] theorem covered_join (a b : Option DependencySet) :
    Covered A (join a b) ↔ Covered A a ∧ Covered A b := by
  cases a <;> cases b <;> simp [Covered, join, mem_union]
  constructor
  · intro all
    exact ⟨fun t member => all t (.inl member), fun t member => all t (.inr member)⟩
  · intro both t member
    exact member.elim (both.1 t) (both.2 t)

end DependencySet

open DependencySet (Covered covered_none covered_join)

/-- What a justification may rest on: which assumptions may be depended on, and which dependencies
are taken to hold. -/
structure Assumptions where
  /-- What may be depended on. -/
  tracked : TermId → Prop
  /-- Dependencies are taken to hold. -/
  Active : Option DependencySet → Prop
  /-- A union holds only if its parts do. -/
  of_join : ∀ {a b : Option DependencySet}, Active (DependencySet.join a b) → Active a ∧ Active b

namespace Assumptions

/-- Everything is taken to hold. -/
def all : Assumptions := ⟨fun _ => True, fun _ => True, fun _ => ⟨trivial, trivial⟩⟩

/-- Nothing is taken to hold. -/
def none : Assumptions := ⟨fun _ => True, fun _ => False, False.elim⟩

/-- Some of the tracked assumptions are taken to hold, and all that depends on these only. -/
def some (tracked active : TermId → Prop) : Assumptions :=
  ⟨tracked, Covered active, fun covered => (covered_join ..).mp covered⟩

end Assumptions

/-- A formula is justified: it has a truth value, depends on tracked assumptions only, and is true
if they are taken to hold. -/
def Entry.Justified (R : Reading) (A : Assumptions) (s : Store) (e : Entry) : Prop :=
  ∃ p, R.Bit s e.formula p ∧ Covered A.tracked e.deps ∧ (A.Active e.deps → p = true)

/-- Formulas stay justified when the store grows. -/
theorem Entry.Justified.mono {R : Reading} {A : Assumptions} {s after : Store} {e : Entry}
    (known : e.Justified R A s) (grown : s.Extends after) : e.Justified R A after := by
  obtain ⟨p, bit, rest⟩ := known
  exact ⟨p, R.mono bit grown, rest⟩

namespace Goal

variable {R : Reading} {A : Assumptions} {s after : Store} {g g' : Goal} {e : Entry} {p q : Bool}

/-- All formulas are true. -/
def Satisfied (R : Reading) (s : Store) (g : Goal) : Prop :=
  ∀ e ∈ g.entries, R.Bit s e.formula true

/-- A goal as it is built: one that is refuted holds `false` alone, and dependencies are there only
if the goal keeps them. -/
structure Lawful (g : Goal) : Prop where
  /-- A refuted goal holds `false` alone. -/
  refuted : g.inconsistent = true → ∃ e, g.entries = [e] ∧ e.formula = Store.falseId
  /-- Dependencies are kept ones. -/
  kept : ∀ e ∈ g.entries, g.keptDeps e.deps = e.deps

/-- All formulas of a goal are justified. -/
structure Justified (R : Reading) (A : Assumptions) (s : Store) (g : Goal) : Prop
    extends g.Lawful where
  /-- The formulas are justified. -/
  entries : ∀ e ∈ g.entries, e.Justified R A s

/-- Two goals are to produce the same: models, proofs or cores. -/
structure Alike (g g' : Goal) : Prop where
  /-- Models are asked for in both or in none. -/
  models : g'.models = g.models
  /-- Proofs are kept in both or in none. -/
  proofs : g'.proofs = g.proofs
  /-- Dependencies are kept in both or in none. -/
  cores : g'.cores = g.cores

/-- A goal is like itself. -/
theorem Alike.refl (g : Goal) : g.Alike g := ⟨rfl, rfl, rfl⟩

/-- Likeness is transitive. -/
theorem Alike.trans {g'' : Goal} (first : g.Alike g') (second : g'.Alike g'') : g.Alike g'' :=
  ⟨second.models.trans first.models, second.proofs.trans first.proofs,
    second.cores.trans first.cores⟩

/-- Goals that are alike keep the same dependencies. -/
theorem Alike.keptDeps_eq (alike : g.Alike g') (deps : Option DependencySet) :
    g'.keptDeps deps = g.keptDeps deps := by
  rw [keptDeps, keptDeps, alike.cores]

/-- Kept dependencies are kept. -/
@[simp] theorem keptDeps_keptDeps (g : Goal) (deps : Option DependencySet) :
    g.keptDeps (g.keptDeps deps) = g.keptDeps deps := by
  unfold keptDeps
  split <;> rfl

/-- Absent dependencies are kept. -/
@[simp] theorem keptDeps_none (g : Goal) : g.keptDeps none = none := by
  unfold keptDeps
  split <;> rfl

/-- The kept dependencies of a union are those of its parts. -/
theorem keptDeps_join (g : Goal) (a b : Option DependencySet) :
    g.keptDeps (DependencySet.join a b) =
      DependencySet.join (g.keptDeps a) (g.keptDeps b) := by
  unfold keptDeps
  split <;> rfl

/-- A goal stays justified when the store grows. -/
theorem Justified.mono (known : g.Justified R A s) (grown : s.Extends after) :
    g.Justified R A after where
  refuted := known.refuted
  kept := known.kept
  entries e member := (known.entries e member).mono grown

/-- A goal stays satisfied when the store grows. -/
theorem Satisfied.mono (known : g.Satisfied R s) (grown : s.Extends after) :
    g.Satisfied R after := fun e member => R.mono (known e member) grown

/-- A justified goal that is satisfied in a store that has grown was so before. -/
theorem Justified.satisfied_of_extends (known : g.Justified R A s) (grown : s.Extends after)
    (satisfied : g.Satisfied R after) : g.Satisfied R s := by
  intro e member
  obtain ⟨p, bit, _⟩ := known.entries e member
  exact R.unique (R.mono bit grown) (satisfied e member) ▸ bit

/-- A refuted goal is not satisfied. -/
theorem Justified.not_satisfied (known : g.Justified R A s) (refuted : g.inconsistent = true) :
    ¬g.Satisfied R s := by
  intro satisfied
  obtain ⟨e, only, literal⟩ := known.refuted refuted
  have bit := satisfied e (by rw [only]; exact List.mem_singleton_self e)
  cases R.eq_false bit literal

/-- A goal is justified whatever its depth is. -/
theorem Justified.deeper (known : g.Justified R A s) : g.deeper.Justified R A s :=
  ⟨⟨known.refuted, known.kept⟩, known.entries⟩

/-- A goal without formulas is justified. -/
theorem Justified.cleared (R : Reading) (A : Assumptions) (s : Store) (g : Goal) :
    g.cleared.Justified R A s := ⟨⟨nofun, nofun⟩, nofun⟩

/-- The goal that a justification of `false` refutes is justified. -/
theorem Justified.of_refuted {proof : Option Proof} {deps : Option DependencySet}
    (kept : g.keptDeps deps = deps)
    (justified : (⟨Store.falseId, proof, deps⟩ : Entry).Justified R A s) :
    (g.refuted proof deps).Justified R A s where
  refuted _ := ⟨_, rfl, rfl⟩
  kept e member := by
    obtain rfl := List.mem_singleton.mp member
    exact kept
  entries e member := by
    obtain rfl := List.mem_singleton.mp member
    exact justified

/-- All formulas are true if everything is taken to hold. -/
theorem Justified.satisfied (known : g.Justified R .all s) : g.Satisfied R s := by
  intro e member
  obtain ⟨p, bit, _, holds⟩ := known.entries e member
  exact holds trivial ▸ bit

/-- True formulas are justified. -/
theorem Justified.of_satisfied (known : g.Justified R .none s) (satisfied : g.Satisfied R s) :
    g.Justified R .all s where
  refuted := known.refuted
  kept := known.kept
  entries e member := ⟨true, satisfied e member, fun _ _ _ _ => trivial, fun _ => rfl⟩

section Flatten

/-- Parts have truth values one by one. -/
abbrev PartBits (R : Reading) (s : Store) (parts : List Part) (ps : List Bool) : Prop :=
  List.Forall₂ (fun part p => R.Bit s part.1 p) parts ps

/-- Parts keep their truth values when the store grows. -/
theorem PartBits.mono {parts : List Part} {ps : List Bool} (known : PartBits R s parts ps)
    (grown : s.Extends after) : PartBits R after parts ps :=
  known.imp fun _ _ bit => R.mono bit grown

/-- A derived part is the conclusion. -/
theorem derive_ensures {rule : ProofRule} {proof : Option Proof} {f : TermId} :
    (derive rule proof f).Ensures s fun part _ => part.1 = f := by
  unfold derive
  cases proof with
  | none => exact Terms.ensures_pure rfl
  | some proof => exact Terms.ensures_bind_of_all fun _ _ _ => Terms.ensures_pure rfl

/-- Derived parts are the conclusions. -/
theorem mapM_derive_bits {rule : ProofRule} {proof : Option Proof} {terms : List TermId}
    {ps : List Bool} (known : R.Bits s terms ps) :
    (terms.mapM (derive rule proof)).Ensures s fun parts after => PartBits R after parts ps :=
  Terms.ensures_mapM_forall₂ (K := R.Bit) (F := fun s (part : Part) p => R.Bit s part.1 p)
    (fun _ _ _ _ grown bit => R.mono bit grown) (fun _ _ _ _ grown bit => R.mono bit grown) known
    fun _ _ _ _ bit => derive_ensures.imp fun _ _ grown same => same ▸ R.mono bit grown

/-- The negations of formulas have the other truth values. -/
theorem negations_bits {terms : List TermId} {ps : List Bool} (known : R.Bits s terms ps) :
    (negations terms).Ensures s fun found after => R.Bits after found (ps.map (!·)) := by
  induction known with
  | nil => exact Terms.ensures_pure .nil
  | cons first _ rest =>
    apply Terms.ensures_bind rest
    intro found middle grown others
    apply Terms.ensures_bind (R.not (R.mono first grown))
    intro negation after more built
    exact Terms.ensures_pure (.cons built (others.mono more))

/-- A formula that is taken apart is true if all parts are. -/
theorem split?_bits {part : Part} (known : R.Bit s part.1 p) :
    (split? part).Ensures s fun found after => ∀ parts, found = some parts →
      ∃ ps, PartBits R after parts ps ∧ p = ps.all id := by
  obtain ⟨f, proof⟩ := part
  unfold split?
  apply Terms.ensures_read_bind
  dsimp only
  split
  · next view =>
    apply Terms.ensures_pure
    rintro parts ⟨⟩
    exact ⟨[], .nil, R.of_bool known view⟩
  · next args view =>
    obtain ⟨ps, bits, same⟩ := R.of_and known view
    apply Terms.ensures_bind (mapM_derive_bits bits)
    intro found after _ built
    apply Terms.ensures_pure
    rintro parts ⟨⟩
    exact ⟨ps, built, same⟩
  · next a view =>
    have under := R.of_not known view
    split
    · next inner =>
      apply Terms.ensures_pure
      rintro parts ⟨⟩
      exact ⟨[], .nil, by simpa using R.of_bool under inner⟩
    · next args inner =>
      obtain ⟨ps, bits, same⟩ := R.of_or under inner
      apply Terms.ensures_bind (negations_bits bits)
      intro negated middle _ bits
      apply Terms.ensures_bind (mapM_derive_bits bits)
      intro found after _ built
      apply Terms.ensures_pure
      rintro parts ⟨⟩
      refine ⟨_, built, ?_⟩
      rw [← Bool.not_not p, same, List.all_map]
      simp [List.not_any_eq_all_not, Function.comp_def]
    · exact Terms.ensures_pure nofun
  · exact Terms.ensures_pure nofun

/-- The conjuncts of a formula and those found before are true together. -/
theorem conjunctsOnto_bits (depth : ℕ) {found : List Part} {part : Part} {qs : List Bool}
    {s : Store} {p : Bool} (before : PartBits R s found qs) (known : R.Bit s part.1 p) :
    (conjunctsOnto depth found part).Ensures s fun parts after =>
      ∃ ps, PartBits R after parts ps ∧ ps.all id = (p && qs.all id) := by
  induction depth generalizing found part qs s p with
  | zero => exact Terms.ensures_pure ⟨p :: qs, .cons known before, rfl⟩
  | succ depth deeper =>
    -- The parts are taken apart one after the other.
    have each : ∀ (parts : List Part) {found : List Part} {ps qs : List Bool} {s : Store},
        PartBits R s parts ps → PartBits R s found qs →
        (parts.foldlM (conjunctsOnto depth) found).Ensures s fun parts after =>
          ∃ rs, PartBits R after parts rs ∧ rs.all id = (ps.all id && qs.all id) := by
      intro parts
      induction parts with
      | nil =>
        rintro found ps qs s ⟨⟩ before
        exact Terms.ensures_pure ⟨qs, before, by simp⟩
      | cons part rest tail =>
        rintro found _ qs s (_ | ⟨first, others⟩) before
        next p ps =>
        rw [List.foldlM_cons]
        apply Terms.ensures_bind (deeper before first)
        rintro found middle grown ⟨rs, bits, same⟩
        apply (tail (PartBits.mono others grown) bits).imp
        rintro parts after _ ⟨ts, bits, total⟩
        refine ⟨ts, bits, ?_⟩
        rw [total, same, List.all_cons]
        cases p <;> simp
    unfold conjunctsOnto
    apply Terms.ensures_bind (split?_bits known)
    intro split middle grown taken
    have before := before.mono grown
    cases split with
    | none => exact Terms.ensures_pure ⟨p :: qs, .cons (R.mono known grown) before, rfl⟩
    | some parts =>
      obtain ⟨ps, bits, same⟩ := taken parts rfl
      rw [same]
      exact each parts bits before

/-- A formula is true if all its conjuncts are. -/
theorem flatten_bits {f : TermId} {proof : Option Proof} (known : R.Bit s f p) :
    (flatten f proof).Ensures s fun parts after =>
      ∃ ps, PartBits R after parts ps ∧ p = ps.all id := by
  apply Terms.ensures_bind (conjunctsOnto_bits (f + 1) .nil known)
  rintro parts after _ ⟨ps, bits, same⟩
  apply Terms.ensures_pure
  refine ⟨ps.reverse, List.rel_reverse bits, ?_⟩
  rw [List.all_reverse, same]
  simp

end Flatten

section Entries

variable {parts : List Part} {ps : List Bool} {deps : Option DependencySet}

/-- The entries of parts are justified if the formula of the parts is. -/
theorem justified_of_parts (bits : PartBits R s parts ps) (tracked : Covered A.tracked deps)
    (holds : A.Active deps → ps.all id = true) :
    ∀ e ∈ entriesOf parts deps, e.Justified R A s ∧ e.deps = deps := by
  intro e member
  obtain ⟨part, inside, rfl⟩ := List.mem_map.mp member
  obtain ⟨p, true, bit⟩ := exists_of_forall₂ bits inside
  refine ⟨⟨p, bit, tracked, fun covered => ?_⟩, rfl⟩
  exact List.all_eq_true.mp (holds covered) p true

/-- Parts whose entries are true are all true. -/
theorem all_of_entries (bits : PartBits R s parts ps)
    (true : ∀ e ∈ entriesOf parts deps, R.Bit s e.formula true) : ps.all id = Bool.true := by
  rw [List.all_eq_true]
  intro p member
  obtain ⟨part, inside, bit⟩ := exists_of_forall₂ bits.flip member
  exact R.unique bit (true _ (List.mem_map_of_mem inside))

/-- A part that is `false` makes the formula false. -/
theorem all_of_false {part : Part} (bits : PartBits R s parts ps) (inside : part ∈ parts)
    (literal : part.1 = Store.falseId) : ps.all id = false := by
  obtain ⟨p, member, bit⟩ := exists_of_forall₂ bits inside
  rw [List.all_eq_false]
  exact ⟨p, member, by simp [R.eq_false bit literal]⟩

/-- A part that is found to be `false` is one of the parts and is `false`. -/
theorem falsePart?_spec {part : Part} (found : falsePart? parts = some part) :
    part ∈ parts ∧ part.1 = Store.falseId :=
  ⟨List.mem_of_find?_eq_some found, eq_of_beq (List.find?_some found :)⟩

/-- If no part is found to be `false`, none is. -/
theorem ne_of_falsePart?_none (none : falsePart? parts = none) :
    ∀ part ∈ parts, part.1 ≠ Store.falseId := fun part member literal =>
  List.find?_eq_none.mp none part member (beq_iff_eq.mpr literal)

end Entries

section Assert

/-- What asserting a formula can do: nothing to a refuted goal, else refute it by a part that is
`false`, or append the parts. -/
theorem assertEntry_ensures {post : List Part → Store → Prop}
    (flattened : (flatten e.formula (g.keptProof e.proof)).Ensures s post) :
    (g.assertEntry e).Ensures s fun g' after =>
      g.inconsistent = true ∧ g' = g ∨ g.inconsistent = false ∧ ∃ parts, post parts after ∧
        ((∃ part ∈ parts, part.1 = Store.falseId ∧ g' = g.refuted part.2 (g.keptDeps e.deps)) ∨
          (∀ part ∈ parts, part.1 ≠ Store.falseId) ∧
            g' = { g with entries := g.entries ++ entriesOf parts (g.keptDeps e.deps) }) := by
  unfold assertEntry
  split
  · next refuted => exact Terms.ensures_pure (.inl ⟨refuted, rfl⟩)
  · next consistent =>
    have consistent : g.inconsistent = false := by simpa using consistent
    apply Terms.ensures_bind flattened
    intro parts after _ known
    split
    · next f proof found =>
      obtain ⟨inside, literal⟩ := falsePart?_spec found
      exact Terms.ensures_pure (.inr ⟨consistent, parts, known, .inl ⟨_, inside, literal, rfl⟩⟩)
    · next none =>
      have other := ne_of_falsePart?_none none
      exact Terms.ensures_pure (.inr ⟨consistent, parts, known, .inr ⟨other, rfl⟩⟩)

/-- Asserting a justified formula keeps a goal justified, and the result is satisfied only if the
goal and the formula are. -/
theorem assertEntry_justified (known : g.Justified R A s) (bit : R.Bit s e.formula p)
    (tracked : Covered A.tracked (g.keptDeps e.deps))
    (holds : A.Active (g.keptDeps e.deps) → p = true) :
    (g.assertEntry e).Ensures s fun g' after => g.Alike g' ∧ g'.Justified R A after ∧
      (g'.Satisfied R after → g.Satisfied R after ∧ p = true) := by
  have flattened : (flatten e.formula (g.keptProof e.proof)).Ensures s fun parts after =>
      s.Extends after ∧ ∃ ps, PartBits R after parts ps ∧ p = ps.all id :=
    (flatten_bits bit).imp fun _ _ grown result => ⟨grown, result⟩
  apply (assertEntry_ensures flattened).imp
  rintro g' after grown (⟨refuted, rfl⟩ | ⟨consistent, parts, ⟨_, ps, bits, same⟩, outcome⟩)
  · have known := known.mono grown
    exact ⟨.refl _, known, fun satisfied => absurd satisfied (known.not_satisfied refuted)⟩
  rcases outcome with ⟨part, inside, literal, rfl⟩ | ⟨_, rfl⟩
  · have absurdity : p = false := same.trans (all_of_false bits inside literal)
    have justified : (⟨Store.falseId, part.2, g.keptDeps e.deps⟩ : Entry).Justified R A after :=
      ⟨false, R.falseId after, tracked, fun covered => absurdity ▸ holds covered⟩
    have result : (g.refuted part.2 (g.keptDeps e.deps)).Justified R A after :=
      .of_refuted (g.keptDeps_keptDeps _) justified
    exact ⟨⟨rfl, rfl, rfl⟩, result, fun satisfied => absurd satisfied (result.not_satisfied rfl)⟩
  · have new := justified_of_parts bits tracked (same ▸ holds)
    refine ⟨⟨rfl, rfl, rfl⟩, ⟨⟨?_, ?_⟩, ?_⟩, ?_⟩
    · intro refuted
      rw [show g.inconsistent = true from refuted] at consistent
      cases consistent
    · intro d member
      rcases List.mem_append.mp member with old | added
      · exact known.kept d old
      · rw [(new d added).2]
        exact g.keptDeps_keptDeps _
    · intro d member
      rcases List.mem_append.mp member with old | added
      · exact (known.entries d old).mono grown
      · exact (new d added).1
    · intro satisfied
      refine ⟨fun d member => satisfied d (List.mem_append_left _ member), ?_⟩
      rw [same]
      exact all_of_entries bits fun d member => satisfied d (List.mem_append_right _ member)

end Assert

section Update

variable {slot : ℕ} {parts : List Part} {proof : Option Proof} {deps : Option DependencySet}

/-- The entries of a goal after parts have taken a slot: the first one is in the slot and the others
are appended; `true` is in the slot if there is none. -/
def placed (entries : List Entry) (slot : ℕ) (parts : List Part) (proof : Option Proof)
    (deps : Option DependencySet) : List Entry :=
  match entriesOf parts deps with
  | first :: rest => entries.set slot first ++ rest
  | [] => entries.set slot ⟨Store.trueId, proof, deps⟩

/-- An entry after parts have taken a slot is an old one from another slot, that of a part, or
`true` in the slot. -/
theorem placed_cases {entries : List Entry} {k : ℕ}
    (found : (placed entries slot parts proof deps)[k]? = some e) :
    k ≠ slot ∧ entries[k]? = some e ∨
      (k = slot ∨ entries.length ≤ k) ∧ e ∈ entriesOf parts deps ∨
      k = slot ∧ parts = [] ∧ e = ⟨Store.trueId, proof, deps⟩ := by
  unfold placed at found
  split at found
  · next first rest shape =>
    rw [shape]
    by_cases early : k < entries.length
    · rw [List.getElem?_append_left (by simpa using early), List.getElem?_set] at found
      grind
    · rw [List.getElem?_append_right (by simpa using early)] at found
      have inside := List.mem_of_getElem? found
      exact .inr (.inl ⟨.inr (by omega), List.mem_cons_of_mem _ inside⟩)
  · next shape =>
    have empty : parts = [] := by simpa [entriesOf] using shape
    rw [List.getElem?_set] at found
    grind

/-- The entries of other slots stay where they are. -/
theorem placed_of_ne {entries : List Entry} {k : ℕ} (other : k ≠ slot)
    (found : entries[k]? = some e) : (placed entries slot parts proof deps)[k]? = some e := by
  obtain ⟨early, _⟩ := List.getElem?_eq_some_iff.mp found
  unfold placed
  split
  · rw [List.getElem?_append_left (by simpa using early), List.getElem?_set_ne (Ne.symm other),
      found]
  · rw [List.getElem?_set_ne (Ne.symm other), found]

/-- No slot is lost. -/
theorem length_le_placed (entries : List Entry) :
    entries.length ≤ (placed entries slot parts proof deps).length := by
  unfold placed
  split <;> simp

/-- Every part has its entry, in the slot or after the old entries. -/
theorem placed_of_part {entries : List Entry} (inside : slot < entries.length)
    (member : e ∈ entriesOf parts deps) :
    ∃ k, (k = slot ∨ entries.length ≤ k) ∧
      (placed entries slot parts proof deps)[k]? = some e := by
  unfold placed
  split
  · next first rest shape =>
    rw [shape] at member
    rcases List.mem_cons.mp member with rfl | later
    · refine ⟨slot, .inl rfl, ?_⟩
      rw [List.getElem?_append_left (by simpa using inside), List.getElem?_set_self inside]
    · obtain ⟨k, found⟩ := List.mem_iff_getElem?.mp later
      refine ⟨entries.length + k, .inr (by omega), ?_⟩
      rw [List.getElem?_append_right (by simp)]
      simpa using found
  · next shape =>
    rw [shape] at member
    cases member

/-- What replacing the formula of a slot can do: nothing to a refuted goal, else refute it by a
part that is `false`, or place the parts. -/
theorem update_ensures {post : List Part → Store → Prop}
    (flattened : (flatten e.formula (g.keptProof e.proof)).Ensures s post) :
    (g.update slot e).Ensures s fun g' after =>
      g.inconsistent = true ∧ g' = g ∨ g.inconsistent = false ∧ ∃ parts, post parts after ∧
        ((∃ part ∈ parts, part.1 = Store.falseId ∧ g' = g.refuted part.2 (g.keptDeps e.deps)) ∨
          (∀ part ∈ parts, part.1 ≠ Store.falseId) ∧ ∃ entries, g' = { g with entries } ∧
            entries = placed g.entries slot parts (g.keptProof e.proof) (g.keptDeps e.deps)) := by
  unfold update
  split
  · next refuted => exact Terms.ensures_pure (.inl ⟨refuted, rfl⟩)
  · next consistent =>
    have consistent : g.inconsistent = false := by simpa using consistent
    apply Terms.ensures_bind flattened
    intro parts after _ known
    split
    · next f proof found =>
      obtain ⟨inside, literal⟩ := falsePart?_spec found
      exact Terms.ensures_pure (.inr ⟨consistent, parts, known, .inl ⟨_, inside, literal, rfl⟩⟩)
    · next none =>
      have other := ne_of_falsePart?_none none
      split
      · next first rest shape =>
        refine Terms.ensures_pure (.inr ⟨consistent, parts, known, .inr ⟨other, _, rfl, ?_⟩⟩)
        rw [placed, shape]
      · next shape =>
        refine Terms.ensures_pure (.inr ⟨consistent, parts, known, .inr ⟨other, _, rfl, ?_⟩⟩)
        rw [placed, shape]

/-- Replacing the formula of a slot by a justified one keeps a goal justified, and the result is
satisfied only if the new formula and those of the other slots are. -/
theorem update_justified (known : g.Justified R A s) (inside : slot < g.entries.length)
    (bit : R.Bit s e.formula p) (tracked : Covered A.tracked (g.keptDeps e.deps))
    (holds : A.Active (g.keptDeps e.deps) → p = true) :
    (g.update slot e).Ensures s fun g' after => g.Alike g' ∧ g'.Justified R A after ∧
      (g'.Satisfied R after → p = true ∧
        ∀ k d, k ≠ slot → g.entries[k]? = some d → R.Bit after d.formula true) := by
  apply (update_ensures (flatten_bits bit)).imp
  rintro g' after grown (⟨refuted, rfl⟩ | ⟨consistent, parts, ⟨ps, bits, same⟩, outcome⟩)
  · have known := known.mono grown
    exact ⟨.refl _, known, fun satisfied => absurd satisfied (known.not_satisfied refuted)⟩
  rcases outcome with ⟨part, inside, literal, rfl⟩ | ⟨_, _, rfl, rfl⟩
  · have absurdity : p = false := same.trans (all_of_false bits inside literal)
    have justified : (⟨Store.falseId, part.2, g.keptDeps e.deps⟩ : Entry).Justified R A after :=
      ⟨false, R.falseId after, tracked, fun covered => absurdity ▸ holds covered⟩
    have result : (g.refuted part.2 (g.keptDeps e.deps)).Justified R A after :=
      .of_refuted (g.keptDeps_keptDeps _) justified
    exact ⟨⟨rfl, rfl, rfl⟩, result, fun satisfied => absurd satisfied (result.not_satisfied rfl)⟩
  · have new := justified_of_parts bits tracked (same ▸ holds)
    have each : ∀ d ∈ placed g.entries slot parts (g.keptProof e.proof) (g.keptDeps e.deps),
        d.Justified R A after ∧ g.keptDeps d.deps = d.deps := by
      intro d member
      obtain ⟨k, found⟩ := List.mem_iff_getElem?.mp member
      rcases placed_cases found with ⟨_, old⟩ | ⟨_, added⟩ | ⟨_, _, rfl⟩
      · have member := List.mem_of_getElem? old
        exact ⟨(known.entries d member).mono grown, known.kept d member⟩
      · rw [(new d added).2]
        exact ⟨(new d added).1, g.keptDeps_keptDeps _⟩
      · exact ⟨⟨true, R.trueId after, tracked, fun _ => rfl⟩, g.keptDeps_keptDeps _⟩
    refine ⟨⟨rfl, rfl, rfl⟩, ⟨⟨?_, fun d member => (each d member).2⟩,
      fun d member => (each d member).1⟩, fun satisfied => ⟨?_, ?_⟩⟩
    · intro refuted
      rw [show g.inconsistent = true from refuted] at consistent
      cases consistent
    · rw [same]
      apply all_of_entries bits
      intro d member
      obtain ⟨k, _, found⟩ := placed_of_part inside member
      exact satisfied d (List.mem_of_getElem? found)
    · intro k d other found
      exact satisfied d (List.mem_of_getElem? (placed_of_ne other found))

end Update

section Redundancies

/-- The atom of a formula is true if the formula is and does not stand negated, or is false and
does. -/
theorem literal_bit {f : TermId} (known : R.Bit s f p) :
    R.Bit s (s.literal f).1 (p ^^ (s.literal f).2) := by
  unfold Store.literal
  split
  · next a view => simpa using R.of_not known view
  · simpa using known

/-- What keeping new formulas does: the result has old and new entries only, the new ones other than
`true` and the old ones among them, and every new entry is `true` or says what one of the result
says. -/
theorem distinctEntries_ok {entries : List Entry} {kept result : Array Entry}
    (run : distinctEntries s kept entries = .ok result) :
    (∀ e ∈ result, e ∈ kept ∨ e ∈ entries ∧ e.formula ≠ Store.trueId) ∧ (∀ e ∈ kept, e ∈ result) ∧
      ∀ e ∈ entries, e.formula = Store.trueId ∨
        ∃ k ∈ result, s.literal k.formula = s.literal e.formula := by
  fun_induction distinctEntries s kept entries with
  | case1 kept =>
    obtain rfl := Except.ok.inj run
    simp
  | case2 kept e rest trivial tail =>
    obtain ⟨old, stay, said⟩ := tail run
    refine ⟨fun d member => (old d member).imp id (.imp (List.mem_cons_of_mem _) id), stay, ?_⟩
    intro d member
    rcases List.mem_cons.mp member with rfl | later
    · exact .inl trivial
    · exact said d later
  | case3 kept e rest new atom negated literal repeated tail =>
    obtain ⟨old, stay, said⟩ := tail run
    refine ⟨fun d member => (old d member).imp id (.imp (List.mem_cons_of_mem _) id), stay, ?_⟩
    intro d member
    rcases List.mem_cons.mp member with rfl | later
    · obtain ⟨k, inside, same⟩ := Array.any_eq_true'.mp repeated
      exact .inr ⟨k, stay k inside, by rw [eq_of_beq same, literal]⟩
    · exact said d later
  | case4 => cases run
  | case5 kept e rest new atom negated literal fresh consistent tail =>
    obtain ⟨old, stay, said⟩ := tail run
    refine ⟨?_, fun d member => stay d (Array.mem_push_of_mem _ member), ?_⟩
    · intro d member
      rcases old d member with pushed | ⟨later, other⟩
      · rcases Array.mem_push.mp pushed with before | rfl
        · exact .inl before
        · exact .inr ⟨List.mem_cons_self .., new⟩
      · exact .inr ⟨List.mem_cons_of_mem _ later, other⟩
    · intro d member
      rcases List.mem_cons.mp member with rfl | later
      · exact .inr ⟨_, stay _ (Array.mem_push_self ..), rfl⟩
      · exact said d later

/-- What stops the keeping of new formulas: an entry and an earlier one with the other sign. Neither
of them is a new `true`. -/
theorem distinctEntries_error {entries : List Entry} {kept : Array Entry} {earlier later : Entry}
    (run : distinctEntries s kept entries = .error (earlier, later)) :
    (earlier ∈ kept ∨ earlier ∈ entries ∧ earlier.formula ≠ Store.trueId) ∧
      (later ∈ entries ∧ later.formula ≠ Store.trueId) ∧
      s.literal earlier.formula = ((s.literal later.formula).1, !(s.literal later.formula).2) := by
  fun_induction distinctEntries s kept entries with
  | case1 => cases run
  | case2 kept e rest trivial tail =>
    obtain ⟨first, second, opposite⟩ := tail run
    exact ⟨first.imp id (.imp (List.mem_cons_of_mem _) id),
      second.imp (List.mem_cons_of_mem _) id, opposite⟩
  | case3 kept e rest new atom negated literal repeated tail =>
    obtain ⟨first, second, opposite⟩ := tail run
    exact ⟨first.imp id (.imp (List.mem_cons_of_mem _) id),
      second.imp (List.mem_cons_of_mem _) id, opposite⟩
  | case4 kept e rest new atom negated literal fresh found same =>
    obtain ⟨rfl, rfl⟩ := Prod.mk.inj (Except.error.inj run)
    refine ⟨.inl (Array.mem_of_find?_eq_some same), ⟨List.mem_cons_self .., new⟩, ?_⟩
    rw [literal]
    exact eq_of_beq (Array.find?_some same :)
  | case5 kept e rest new atom negated literal fresh consistent tail =>
    obtain ⟨first, second, opposite⟩ := tail run
    refine ⟨?_, second.imp (List.mem_cons_of_mem _) id, opposite⟩
    rcases first with pushed | ⟨inside, other⟩
    · rcases Array.mem_push.mp pushed with before | rfl
      · exact .inl before
      · exact .inr ⟨List.mem_cons_self .., new⟩
    · exact .inr ⟨List.mem_cons_of_mem _ inside, other⟩

/-- What dropping redundant formulas can do: nothing to a refuted goal, else refute it by two
complementary formulas, or keep some entries that say what all say. -/
theorem elimRedundancies_ensures :
    g.elimRedundancies.Ensures s fun g' after => g.inconsistent = true ∧ g' = g ∨
      g.inconsistent = false ∧
      ((∃ proof earlier later, (earlier ∈ g.entries ∧ earlier.formula ≠ Store.trueId) ∧
        (later ∈ g.entries ∧ later.formula ≠ Store.trueId) ∧
        s.literal earlier.formula = ((s.literal later.formula).1, !(s.literal later.formula).2) ∧
        (clash earlier later).Ensures s (fun result last => result.1 = proof ∧ last = after) ∧
        g' = g.refuted proof (DependencySet.join later.deps earlier.deps)) ∨
      ∃ kept : List Entry, (∀ e ∈ kept, e ∈ g.entries ∧ e.formula ≠ Store.trueId) ∧
        (∀ e ∈ g.entries, e.formula = Store.trueId ∨
          ∃ k ∈ kept, s.literal k.formula = s.literal e.formula) ∧
        g' = { g with entries := kept } ∧ after = s) := by
  unfold elimRedundancies
  split
  · next refuted => exact Terms.ensures_pure (.inl ⟨refuted, rfl⟩)
  · next consistent =>
    have consistent : g.inconsistent = false := by simpa using consistent
    apply Terms.ensures_read_bind
    split
    · next kept run =>
      obtain ⟨old, _, said⟩ := distinctEntries_ok run
      refine Terms.ensures_pure (.inr ⟨consistent, .inr ⟨kept.toList, ?_, ?_, rfl, rfl⟩⟩)
      · intro e member
        simpa using old e (by simpa using member)
      · simpa using said
    · next earlier later run =>
      obtain ⟨first, second, opposite⟩ := distinctEntries_error run
      have first : earlier ∈ g.entries ∧ earlier.formula ≠ Store.trueId := by simpa using first
      refine .inr ⟨consistent, .inl ⟨_, earlier, later, first, second, opposite, ⟨rfl, rfl⟩, ?_⟩⟩
      unfold clash
      split <;> rfl

/-- Dropping redundant formulas keeps a goal justified, and the result is satisfied only if the goal
is. -/
theorem elimRedundancies_justified (known : g.Justified R A s) :
    g.elimRedundancies.Ensures s fun g' after => g.Alike g' ∧ g'.Justified R A after ∧
      (g'.Satisfied R after → g.Satisfied R after) := by
  apply elimRedundancies_ensures.imp
  rintro g' after grown (⟨_, rfl⟩ | ⟨consistent, outcome⟩)
  · exact ⟨.refl _, known.mono grown, id⟩
  rcases outcome with ⟨proof, earlier, later, ⟨first, _⟩, ⟨second, _⟩, opposite, _, rfl⟩ |
    ⟨kept, old, said, rfl, rfl⟩
  · obtain ⟨p, bit, tracked, holds⟩ := known.entries earlier first
    obtain ⟨q, other, alsoTracked, alsoHolds⟩ := known.entries later second
    -- The atom of both cannot be true and false.
    have differ : p ≠ q := by
      have left := literal_bit bit
      rw [opposite] at left
      have same := R.unique left (literal_bit other)
      intro equal
      rw [equal] at same
      generalize (s.literal later.formula).2 = negated at same
      cases negated <;> cases q <;> cases same
    have justified : (⟨Store.falseId, proof, DependencySet.join later.deps earlier.deps⟩ :
        Entry).Justified R A after := by
      refine ⟨false, R.falseId after, (covered_join ..).mpr ⟨alsoTracked, tracked⟩, ?_⟩
      intro covered
      obtain ⟨left, right⟩ := A.of_join covered
      exact absurd ((holds right).trans (alsoHolds left).symm) differ
    have result : (g.refuted proof (DependencySet.join later.deps earlier.deps)).Justified R A
        after := by
      apply Justified.of_refuted _ justified
      rw [keptDeps_join, known.kept later second, known.kept earlier first]
    exact ⟨⟨rfl, rfl, rfl⟩, result, fun satisfied => absurd satisfied (result.not_satisfied rfl)⟩
  · refine ⟨⟨rfl, rfl, rfl⟩, ⟨⟨?_, fun e member => known.kept e (old e member).1⟩,
      fun e member => known.entries e (old e member).1⟩, ?_⟩
    · intro refuted
      rw [show g.inconsistent = true from refuted] at consistent
      cases consistent
    · intro satisfied e member
      obtain ⟨p, bit, _⟩ := known.entries e member
      rcases said e member with trivial | ⟨k, inside, same⟩
      · exact R.eq_true bit trivial ▸ bit
      · have left := literal_bit (satisfied k inside)
        rw [same] at left
        have equal := R.unique left (literal_bit bit)
        rw [Bool.xor_left_inj] at equal
        exact equal ▸ bit

end Redundancies

section Passes

variable {σ : Type} {visit : ℕ → Entry → Goal → Attempt σ Goal}
  {P : ℕ → Goal → σ → Store → Prop} {bad : Error → σ → Store → Prop}

/-- A pass keeps what every visit keeps, and ends at a refuted goal or after the last slot, or when
its rounds are used up. -/
theorem visitFrom_ensures (limit : ℕ)
    (visited : ∀ slot e g state s, slot < limit → P slot g state s → g.entries[slot]? = some e →
      g.inconsistent = false → (visit slot e g).Ensures state s (P (slot + 1)) bad) :
    ∀ (rounds slot : ℕ) {g : Goal} {state : σ} {s : Store}, slot + rounds = limit →
      P slot g state s → (visitFrom visit rounds slot g).Ensures state s (fun g' state' after =>
        ∃ last, P last g' state' after ∧
          (g'.inconsistent = true ∨ g'.size ≤ last ∨ last = limit)) bad
  | 0, slot, g, state, s, total, holds => Attempt.ensures_pure ⟨slot, holds, .inr (.inr total)⟩
  | rounds + 1, slot, g, state, s, total, holds => by
    unfold visitFrom
    split
    · next e found =>
      split
      · next refuted => exact Attempt.ensures_pure ⟨slot, holds, .inl refuted⟩
      · next consistent =>
        have consistent : g.inconsistent = false := by simpa using consistent
        apply Attempt.ensures_bind (visited slot e g state s (by omega) holds found consistent)
        intro g' state' middle _ holds
        exact visitFrom_ensures limit visited rounds (slot + 1) (by omega) holds
    · next absent =>
      exact Attempt.ensures_pure ⟨slot, holds, .inr (.inl (List.getElem?_eq_none_iff.mp absent))⟩

/-- A pass over all slots keeps what every visit keeps, and ends at a refuted goal or after the last
slot. -/
theorem visitAll_ensures
    (visited : ∀ slot e g state s, P slot g state s → g.entries[slot]? = some e →
      g.inconsistent = false → (visit slot e g).Ensures state s (P (slot + 1)) bad)
    (tooMany : ∀ slot g state s, P slot g state s → bad (.internal "too many formulas") state s)
    {state : σ} (holds : P 0 g state s) :
    (visitAll visit g).Ensures state s (fun g' state' after =>
      ∃ last, P last g' state' after ∧ (g'.inconsistent = true ∨ g'.size ≤ last)) bad := by
  apply Attempt.ensures_bind (visitFrom_ensures slotLimit
    (fun slot e g state s _ => visited slot e g state s) slotLimit 0 (Nat.zero_add _) holds)
  rintro g' state' after _ ⟨last, holds, ended⟩
  split
  · next fits =>
    apply Attempt.ensures_pure
    refine ⟨last, holds, ?_⟩
    rcases ended with refuted | short | used
    · exact .inl refuted
    · exact .inr short
    · rcases Bool.or_eq_true_iff.mp fits with refuted | small
      · exact .inl refuted
      · have small := of_decide_eq_true small
        exact .inr (by omega)
  · exact Attempt.ensures_throw (tooMany last g' state' after holds)

end Passes

end Goal
end Stratagem
