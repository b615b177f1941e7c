import Stratagem.Proofs.Goal
import Stratagem.Proofs.Term.Unfolding

/-!
# Sequences of operations on goals

Whatever is done to a goal that was made empty, it stays in normal form: it is refuted and holds
`false` alone, or it holds formulas that cannot be taken apart any further, each with a proof of it
if proofs are kept. The depth to which formulas are taken apart is no restriction: the atom of a
part stands before the atom of the formula it is a part of. Under every interpretation an assertion
adds a formula to the conjunction, an update replaces one and dropping redundant ones changes
nothing.
-/
namespace Stratagem

open Store (Extends)

/-- A formula that is neither a conjunction nor a negated disjunction. -/
def Store.Conjunct (s : Store) (f : TermId) : Prop :=
  s.op f ≠ .and ∧ ∀ a, s.view f = (.not, [a]) → s.op a ≠ .or

namespace Store

variable {s after : Store} {f a : TermId}

/-- What cannot be taken apart still cannot when the store grows. -/
theorem Conjunct.mono (known : s.Conjunct f) (inside : f < s.size) (grown : s.Extends after) :
    after.Conjunct f := by
  refine ⟨?_, fun a view => ?_⟩
  · rw [grown.op_eq inside]
    exact known.1
  · rw [grown.view_eq inside] at view
    have member : a ∈ s.args f := by
      rw [show s.args f = [a] from congrArg Prod.snd view]
      exact List.mem_singleton_self a
    rw [grown.op_eq ((lt_of_mem_args member).trans inside)]
    exact known.2 a view

/-- The atom of a formula is the formula or stands before it. -/
theorem literal_le (s : Store) (f : TermId) : (s.literal f).1 ≤ f := by
  unfold literal
  split
  · next a view =>
    have member : a ∈ s.args f := by
      rw [show s.args f = [a] from congrArg Prod.snd view]
      exact List.mem_singleton_self a
    exact (lt_of_mem_args member).le
  · exact le_rfl

/-- The atom of a negation is what is negated. -/
theorem literal_of_not (view : s.view f = (.not, [a])) : s.literal f = (a, true) := by
  unfold literal
  rw [view]

/-- The atom of what is not a negation is the formula itself. -/
theorem literal_of_ne (other : s.op f ≠ .not) : s.literal f = (f, false) := by
  unfold literal
  split
  · next view => exact absurd (congrArg Prod.fst view) other
  · rfl

/-- A formula keeps its atom when the store grows. -/
theorem Extends.literal_eq (grown : s.Extends after) (inside : f < s.size) :
    after.literal f = s.literal f := by
  rw [literal, literal, grown.view_eq inside]

end Store

/-- A formula of the store, with a proof of it if there is one. -/
structure Entry.Concluded (s : Store) (e : Entry) : Prop where
  /-- The formula is in the store. -/
  inside : e.formula < s.size
  /-- What is proved is the formula. -/
  conclusion : ∀ p ∈ e.proof, p.conclusion = e.formula

namespace Goal

variable {s after : Store} {g : Goal} {e : Entry} {kept : Bool}

/-- A part of a formula: in the store, and with a proof of it only if proofs are kept. -/
structure Proper (s : Store) (kept : Bool) (part : Part) : Prop where
  /-- The part is in the store. -/
  inside : part.1 < s.size
  /-- What is proved is the part. -/
  conclusion : ∀ p ∈ part.2, p.conclusion = part.1
  /-- A proof is there only if it is kept. -/
  kept : part.2.isSome = true → kept = true

/-- A part stays proper when the store grows. -/
theorem Proper.mono {part : Part} (known : Proper s kept part) (grown : s.Extends after) :
    Proper after kept part :=
  ⟨grown.lt_size known.inside, known.conclusion, known.kept⟩

section Flatten

/-- A derived part is proper. -/
theorem derive_proper {rule : ProofRule} {proof : Option Proof} {f : TermId}
    (inside : f < s.size) (allowed : proof.isSome = true → kept = true) :
    (derive rule proof f).Ensures s fun part after => part.1 = f ∧ Proper after kept part := by
  unfold derive
  cases proof with
  | none => exact Terms.ensures_pure ⟨rfl, inside, nofun, nofun⟩
  | some proof =>
    have made : (Proof.make rule [proof] f).Ensures s fun q _ => q.conclusion = f := rfl
    refine Terms.ensures_bind made fun q after grown conclusion => ?_
    refine Terms.ensures_pure ⟨rfl, grown.lt_size inside, ?_, fun _ => allowed rfl⟩
    rintro p ⟨⟩
    exact conclusion

/-- Derived parts are proper, and they are the conclusions. -/
theorem mapM_derive_proper {rule : ProofRule} {proof : Option Proof} {terms : List TermId}
    (inside : ∀ f ∈ terms, f < s.size) (allowed : proof.isSome = true → kept = true) :
    (terms.mapM (derive rule proof)).Ensures s fun parts after =>
      ∀ part ∈ parts, part.1 ∈ terms ∧ Proper after kept part := by
  have each : (terms.mapM (derive rule proof)).Ensures s fun parts after =>
      List.Forall₂ (fun f (part : Part) => part.1 = f ∧ Proper after kept part) terms parts :=
    Terms.ensures_mapM (fun _ _ _ _ grown known => ⟨known.1, known.2.mono grown⟩) terms
      fun f member now grown => derive_proper (grown.lt_size (inside f member)) allowed
  refine each.imp fun parts after _ related part member => ?_
  obtain ⟨f, there, same, proper⟩ := exists_of_forall₂ related.flip member
  exact ⟨same ▸ there, proper⟩

/-- Negations are built of the formulas. -/
theorem negations_ensures {terms : List TermId} (inside : ∀ f ∈ terms, f < s.size) :
    (negations terms).Ensures s fun found after =>
      List.Forall₂ (fun a n => n < after.size ∧ after.view n = (.not, [a])) terms found := by
  induction terms with
  | nil => exact Terms.ensures_pure .nil
  | cons a rest tail =>
    obtain ⟨first, others⟩ := List.forall_mem_cons.mp inside
    refine Terms.ensures_bind (tail others) fun found middle grown known => ?_
    have there : ∀ b ∈ [a], b < middle.size := by simpa using grown.lt_size first
    refine Terms.ensures_bind (Terms.mkApp_node there) fun n after more built => ?_
    refine Terms.ensures_pure (.cons ⟨built.1, by rw [Store.view, built.2]⟩ ?_)
    exact known.imp fun _ _ built =>
      ⟨more.lt_size built.1, (more.view_eq built.1).trans built.2⟩

/-- A formula that is not taken apart cannot be; the parts of one that is have smaller atoms. -/
theorem split?_proper {part : Part} (known : Proper s kept part) :
    (split? part).Ensures s fun found after =>
      (found = none → s.Conjunct part.1) ∧ ∀ parts, found = some parts → ∀ q ∈ parts,
        Proper after kept q ∧ (after.literal q.1).1 < (s.literal part.1).1 := by
  obtain ⟨f, proof⟩ := part
  have within : ∀ a ∈ s.args f, a < s.size := fun a member =>
    (Store.lt_of_mem_args member).trans known.inside
  unfold split?
  apply Terms.ensures_read_bind
  dsimp only
  split
  · exact Terms.ensures_pure ⟨nofun, by rintro parts ⟨⟩; exact nofun⟩
  · next args view =>
    have arguments : s.args f = args := congrArg Prod.snd view
    have atom : s.literal f = (f, false) := Store.literal_of_ne (by
      rw [show s.op f = .and from congrArg Prod.fst view]
      exact nofun)
    refine Terms.ensures_bind (mapM_derive_proper (arguments ▸ within) known.kept) ?_
    intro found after grown proper
    refine Terms.ensures_pure ⟨nofun, ?_⟩
    rintro parts ⟨⟩ q member
    obtain ⟨there, proper⟩ := proper q member
    refine ⟨proper, ?_⟩
    rw [atom]
    exact (after.literal_le q.1).trans_lt (Store.lt_of_mem_args (arguments ▸ there))
  · next a view =>
    have member : a ∈ s.args f := by
      rw [show s.args f = [a] from congrArg Prod.snd view]
      exact List.mem_singleton_self a
    have below := within a member
    split
    · exact Terms.ensures_pure ⟨nofun, by rintro parts ⟨⟩; exact nofun⟩
    · next args inner =>
      have arguments : s.args a = args := congrArg Prod.snd inner
      have smaller : ∀ b ∈ args, b < a := fun b member =>
        Store.lt_of_mem_args (arguments ▸ member)
      refine Terms.ensures_bind
        (negations_ensures fun b member => (smaller b member).trans below) ?_
      intro negated middle grown negations
      refine Terms.ensures_bind
        (mapM_derive_proper (fun n member =>
          let ⟨_, _, inside, _⟩ := exists_of_forall₂ negations.flip member
          inside) known.kept) ?_
      intro found after more proper
      refine Terms.ensures_pure ⟨nofun, ?_⟩
      rintro parts ⟨⟩ q member
      obtain ⟨there, proper⟩ := proper q member
      obtain ⟨b, among, inside, negation⟩ := exists_of_forall₂ negations.flip there
      refine ⟨proper, ?_⟩
      rw [more.literal_eq inside, Store.literal_of_not negation, Store.literal_of_not view]
      exact smaller b among
    · next noBool noOr =>
      refine Terms.ensures_pure ⟨fun _ => ⟨?_, fun b other => ?_⟩, nofun⟩
      · rw [show s.op f = .not from congrArg Prod.fst view]
        exact nofun
      · obtain rfl : a = b := by simpa [view] using other
        exact fun or => noOr (s.args a) (Prod.ext or rfl)
  · next noTrue noAnd noNot =>
    refine Terms.ensures_pure ⟨fun _ => ⟨?_, fun b other => absurd other (noNot b)⟩, nofun⟩
    exact fun and => noAnd (s.args f) (Prod.ext and rfl)

/-- Parts that cannot be taken apart any further. -/
def Flat (s : Store) (kept : Bool) (parts : List Part) : Prop :=
  ∀ part ∈ parts, Proper s kept part ∧ s.Conjunct part.1

/-- Parts stay flat when the store grows. -/
theorem Flat.mono {parts : List Part} (known : Flat s kept parts) (grown : s.Extends after) :
    Flat after kept parts := fun part member =>
  ⟨(known part member).1.mono grown, (known part member).2.mono (known part member).1.inside grown⟩

/-- Conjuncts cannot be taken apart any further if the depth is above the atom of the formula. -/
theorem conjunctsOnto_flat (depth : ℕ) {found : List Part} {part : Part} {s : Store}
    (before : Flat s kept found) (known : Proper s kept part)
    (deep : (s.literal part.1).1 < depth) :
    (conjunctsOnto depth found part).Ensures s fun parts after => Flat after kept parts := by
  induction depth generalizing found part s with
  | zero => exact absurd deep (Nat.not_lt_zero _)
  | succ depth deeper =>
    -- The parts are taken apart one after the other.
    have each : ∀ (parts : List Part) {found : List Part} {s : Store},
        (∀ q ∈ parts, Proper s kept q ∧ (s.literal q.1).1 < depth) → Flat s kept found →
        (parts.foldlM (conjunctsOnto depth) found).Ensures s fun parts after =>
          Flat after kept parts := by
      intro parts
      induction parts with
      | nil => exact fun _ before => Terms.ensures_pure before
      | cons q rest tail =>
        intro found s known before
        obtain ⟨first, others⟩ := List.forall_mem_cons.mp known
        rw [List.foldlM_cons]
        refine Terms.ensures_bind (deeper before first.1 first.2) fun found middle grown flat => ?_
        refine tail (fun r member => ?_) flat
        obtain ⟨proper, smaller⟩ := others r member
        exact ⟨proper.mono grown, by rwa [grown.literal_eq proper.inside]⟩
    unfold conjunctsOnto
    refine Terms.ensures_bind (split?_proper known) fun split middle grown taken => ?_
    have before := before.mono grown
    cases split with
    | none =>
      have flat := (taken.1 rfl).mono known.inside grown
      exact Terms.ensures_pure (List.forall_mem_cons.mpr ⟨⟨known.mono grown, flat⟩, before⟩)
    | some parts =>
      refine each parts (fun q member => ?_) before
      obtain ⟨proper, smaller⟩ := taken.2 parts rfl q member
      exact ⟨proper, Nat.lt_of_lt_of_le smaller (Nat.le_of_lt_succ deep)⟩

/-- The conjuncts of a formula cannot be taken apart any further. -/
theorem flatten_flat {f : TermId} {proof : Option Proof} (known : Proper s kept (f, proof)) :
    (flatten f proof).Ensures s fun parts after => Flat after kept parts := by
  have deep : (s.literal f).1 < f + 1 := Nat.lt_succ_of_le (s.literal_le f)
  refine Terms.ensures_bind (conjunctsOnto_flat (f + 1) nofun known deep) ?_
  exact fun parts after _ flat => Terms.ensures_pure fun q member => flat q (List.mem_reverse.mp member)

end Flatten

/-- A goal in normal form. -/
structure WellFormed (s : Store) (g : Goal) : Prop where
  /-- Proofs and dependencies are not kept at once. -/
  exclusive : ¬(g.proofs = true ∧ g.cores = true)
  /-- A refuted goal holds `false` alone. -/
  refuted : g.inconsistent = true → g.formulas = [Store.falseId]
  /-- A goal that is not refuted holds no `false` and nothing that can be taken apart. -/
  flat : g.inconsistent = false → ∀ f ∈ g.formulas, f ≠ Store.falseId ∧ s.Conjunct f
  /-- Formulas are in the store. -/
  inside : ∀ f ∈ g.formulas, f < s.size
  /-- Proofs are there only if they are kept. -/
  proved : ∀ e ∈ g.entries, e.proof.isSome = true → g.proofs = true
  /-- Dependencies are there only if they are kept. -/
  tracked : ∀ e ∈ g.entries, e.deps.isSome = true → g.cores = true
  /-- What is proved of a formula other than `true` is the formula. -/
  conclusion : ∀ e ∈ g.entries, e.formula ≠ Store.trueId →
    ∀ p ∈ e.proof, p.conclusion = e.formula

namespace WellFormed

/-- A goal stays in normal form when the store grows. -/
theorem mono (known : g.WellFormed s) (grown : s.Extends after) : g.WellFormed after where
  exclusive := known.exclusive
  refuted := known.refuted
  flat consistent f member :=
    ⟨(known.flat consistent f member).1,
      (known.flat consistent f member).2.mono (known.inside f member) grown⟩
  inside f member := grown.lt_size (known.inside f member)
  proved := known.proved
  tracked := known.tracked
  conclusion := known.conclusion

/-- The empty goal is in normal form. -/
theorem of_new {models proofs cores : Bool} (made : Goal.new models proofs cores = .ok g)
    (s : Store) : g.WellFormed s := by
  unfold Goal.new at made
  split at made
  · cases made
  · next exclusive =>
    obtain rfl := Except.ok.inj made
    exact ⟨by simpa using exclusive, nofun, nofun, nofun, nofun, nofun, nofun⟩

/-- A goal without its formulas is in normal form. -/
theorem cleared (known : g.WellFormed s) : g.cleared.WellFormed s :=
  ⟨known.exclusive, nofun, nofun, nofun, nofun, nofun, nofun⟩

/-- A goal is in normal form whatever its depth is. -/
theorem deeper (known : g.WellFormed s) : g.deeper.WellFormed s :=
  ⟨known.exclusive, known.refuted, known.flat, known.inside, known.proved, known.tracked,
    known.conclusion⟩

/-- A goal that a proof of `false` refutes is in normal form. -/
theorem of_refuted {proof : Option Proof} {deps : Option DependencySet} (known : g.WellFormed s)
    (proper : Proper s g.proofs (Store.falseId, proof))
    (tracked : deps.isSome = true → g.cores = true) : (g.refuted proof deps).WellFormed s where
  exclusive := known.exclusive
  refuted _ := rfl
  flat := nofun
  inside := by simpa [Goal.refuted, formulas] using proper.inside
  proved := by simpa [Goal.refuted] using proper.kept
  tracked := by simpa [Goal.refuted] using tracked
  conclusion := by simpa [Goal.refuted] using fun _ => proper.conclusion

/-- A goal with other entries is in normal form if each of them is one of the old ones, or belongs
to a part that cannot be taken apart and is not `false`, or is `true`. -/
theorem of_entries {entries : List Entry} (known : g.WellFormed s)
    (consistent : g.inconsistent = false)
    (each : ∀ e ∈ entries, e ∈ g.entries ∨
      (e.formula ≠ Store.falseId ∧ Proper s g.proofs (e.formula, e.proof) ∧
        s.Conjunct e.formula ∨
        e.formula = Store.trueId ∧ (e.proof.isSome = true → g.proofs = true)) ∧
      (e.deps.isSome = true → g.cores = true)) :
    ({ g with entries } : Goal).WellFormed s where
  exclusive := known.exclusive
  refuted refuted := absurd (consistent.symm.trans refuted) nofun
  flat _ f member := by
    obtain ⟨e, there, rfl⟩ := List.mem_map.mp member
    rcases each e there with old | ⟨⟨other, _, conjunct⟩ | ⟨trivial, _⟩, _⟩
    · exact known.flat consistent _ (List.mem_map_of_mem old)
    · exact ⟨other, conjunct⟩
    · have head : s.op e.formula = .bool true := by
        rw [trivial, Store.op, s.node_trueId.2]
      refine ⟨by rw [trivial]; decide, ?_, fun a view => ?_⟩
      · rw [head]
        exact nofun
      · rw [show s.op e.formula = .not from congrArg Prod.fst view] at head
        cases head
  inside f member := by
    obtain ⟨e, there, rfl⟩ := List.mem_map.mp member
    rcases each e there with old | ⟨⟨_, proper, _⟩ | ⟨trivial, _⟩, _⟩
    · exact known.inside _ (List.mem_map_of_mem old)
    · exact proper.inside
    · exact trivial ▸ s.node_trueId.1
  proved e member := by
    rcases each e member with old | ⟨⟨_, proper, _⟩ | ⟨_, allowed⟩, _⟩
    · exact known.proved e old
    · exact proper.kept
    · exact allowed
  tracked e member := by
    rcases each e member with old | ⟨_, allowed⟩
    · exact known.tracked e old
    · exact allowed
  conclusion e member other := by
    rcases each e member with old | ⟨⟨_, proper, _⟩ | ⟨trivial, _⟩, _⟩
    · exact known.conclusion e old other
    · exact proper.conclusion
    · exact absurd trivial other

/-- A conjunction is no formula of a goal in normal form. -/
theorem not_mem_of_and {f : TermId} (known : g.WellFormed s) (head : s.op f = .and) :
    f ∉ g.formulas := by
  intro member
  cases decided : g.inconsistent with
  | false => exact (known.flat decided f member).2.1 head
  | true =>
    rw [known.refuted decided] at member
    obtain rfl := List.mem_singleton.mp member
    rw [Store.op, s.node_falseId.2] at head
    cases head

end WellFormed

section Operations

/-- A formula with the proof that is kept of it. -/
theorem proper_of_concluded (concluded : e.Concluded s) :
    Proper s g.proofs (e.formula, g.keptProof e.proof) := by
  unfold keptProof
  split
  · next kept => exact ⟨concluded.inside, concluded.conclusion, fun _ => kept⟩
  · exact ⟨concluded.inside, nofun, nofun⟩

/-- Dependencies that are kept are there only if the goal keeps them. -/
theorem cores_of_keptDeps {deps : Option DependencySet}
    (present : (g.keptDeps deps).isSome = true) : g.cores = true := by
  unfold keptDeps at present
  split at present
  · next kept => exact kept
  · cases present

/-- The entries of parts that cannot be taken apart and are not `false` fit into a goal. -/
theorem entriesOf_flat {parts : List Part} {deps : Option DependencySet} (flat : Flat s g.proofs parts)
    (other : ∀ part ∈ parts, part.1 ≠ Store.falseId)
    (member : e ∈ entriesOf parts (g.keptDeps deps)) :
    (e.formula ≠ Store.falseId ∧ Proper s g.proofs (e.formula, e.proof) ∧
      s.Conjunct e.formula) ∧ (e.deps.isSome = true → g.cores = true) := by
  obtain ⟨part, there, rfl⟩ := List.mem_map.mp member
  exact ⟨⟨other part there, flat part there⟩, cores_of_keptDeps⟩

/-- Asserting a formula keeps the normal form. -/
theorem assertEntry_wellFormed (known : g.WellFormed s) (concluded : e.Concluded s) :
    (g.assertEntry e).Ensures s fun g' after => g'.WellFormed after := by
  refine (assertEntry_ensures (flatten_flat (proper_of_concluded concluded))).imp ?_
  rintro g' after grown (⟨_, rfl⟩ | ⟨consistent, parts, flat, outcome⟩)
  · exact known.mono grown
  rcases outcome with ⟨part, there, literal, rfl⟩ | ⟨other, rfl⟩
  · have proper := (flat part there).1
    exact (known.mono grown).of_refuted (literal ▸ proper) cores_of_keptDeps
  · refine (known.mono grown).of_entries consistent fun d member => ?_
    rcases List.mem_append.mp member with old | added
    · exact .inl old
    · obtain ⟨fits, tracked⟩ := entriesOf_flat flat other added
      exact .inr ⟨.inl fits, tracked⟩

/-- Replacing the formula of a slot keeps the normal form. -/
theorem update_wellFormed {slot : ℕ} (known : g.WellFormed s) (concluded : e.Concluded s) :
    (g.update slot e).Ensures s fun g' after => g'.WellFormed after := by
  have proper : Proper s g.proofs _ := proper_of_concluded concluded
  refine (update_ensures (flatten_flat proper)).imp ?_
  rintro g' after grown (⟨_, rfl⟩ | ⟨consistent, parts, flat, outcome⟩)
  · exact known.mono grown
  rcases outcome with ⟨part, there, literal, rfl⟩ | ⟨other, _, rfl, rfl⟩
  · exact (known.mono grown).of_refuted (literal ▸ (flat part there).1) cores_of_keptDeps
  · refine (known.mono grown).of_entries consistent fun d member => ?_
    obtain ⟨k, found⟩ := List.mem_iff_getElem?.mp member
    rcases placed_cases found with ⟨_, old⟩ | ⟨_, added⟩ | ⟨_, _, rfl⟩
    · exact .inl (List.mem_of_getElem? old)
    · obtain ⟨fits, tracked⟩ := entriesOf_flat flat other added
      exact .inr ⟨.inl fits, tracked⟩
    · exact .inr ⟨.inr ⟨rfl, proper.kept⟩, cores_of_keptDeps⟩

/-- The refutation by two formulas is one of `false`, from proofs of both. -/
theorem clash_ensures {earlier later : Entry} :
    (clash earlier later).Ensures s fun result _ =>
      (∀ p ∈ result.1, p.conclusion = Store.falseId) ∧
        (result.1.isSome = true → earlier.proof.isSome = true) := by
  unfold clash
  dsimp only
  split
  · next p q first second =>
    have made : (Proof.make .unitResolution [p, q] Store.falseId).Ensures s fun r _ =>
      r.conclusion = Store.falseId := rfl
    refine Terms.ensures_bind made fun r after _ conclusion => ?_
    refine Terms.ensures_pure ⟨?_, fun _ => by rw [first]; rfl⟩
    rintro _ ⟨⟩
    exact conclusion
  · exact Terms.ensures_pure ⟨nofun, nofun⟩

/-- Dropping redundant formulas keeps the normal form. -/
theorem elimRedundancies_wellFormed (known : g.WellFormed s) :
    g.elimRedundancies.Ensures s fun g' after => g'.WellFormed after := by
  refine elimRedundancies_ensures.imp ?_
  rintro g' after grown (⟨_, rfl⟩ | ⟨consistent, outcome⟩)
  · exact known.mono grown
  rcases outcome with ⟨proof, earlier, later, ⟨first, _⟩, ⟨second, _⟩, _, clashed, rfl⟩ |
    ⟨kept, old, _, rfl, _⟩
  · obtain ⟨conclusion, present⟩ : (∀ p ∈ proof, p.conclusion = Store.falseId) ∧
        (proof.isSome = true → earlier.proof.isSome = true) := by
      rw [← clashed.1]
      exact clash_ensures
    refine (known.mono grown).of_refuted
      ⟨after.node_falseId.1, conclusion, fun some => known.proved earlier first (present some)⟩ ?_
    intro some
    have either : later.deps.isSome = true ∨ earlier.deps.isSome = true := by
      revert some
      cases later.deps <;> cases earlier.deps <;> simp [DependencySet.join]
    exact either.elim (known.tracked later second) (known.tracked earlier first)
  · exact (known.mono grown).of_entries consistent fun e member => .inl (old e member).1

/-- An operation on a goal. -/
inductive Operation where
  /-- Assert an input formula. -/
  | assert (f : TermId)
  /-- Assert a tracked assumption. -/
  | track (f : TermId)
  /-- Assert a formula with its justification. -/
  | enter (e : Entry)
  /-- Replace the formula of a slot. -/
  | update (slot : ℕ) (e : Entry)
  /-- Drop redundant formulas. -/
  | elimRedundancies
  /-- Record a transformation. -/
  | deeper
  /-- Drop all formulas; also the way to an empty goal of the same kind. -/
  | clear

namespace Operation

/-- What an operation does to a goal. -/
def apply (g : Goal) : Operation → Terms Goal
  | assert f => g.assert f
  | track f => g.track f
  | enter e => g.assertEntry e
  | update slot e => g.update slot e
  | elimRedundancies => g.elimRedundancies
  | deeper => return g.deeper
  | clear => return g.cleared

/-- The operation is about formulas of the store, proofs that conclude them and a slot of the
goal. -/
def Valid (s : Store) (g : Goal) : Operation → Prop
  | assert f | track f => f < s.size
  | enter e => e.Concluded s
  | update slot e => slot < g.size ∧ e.Concluded s
  | elimRedundancies | deeper | clear => True

end Operation

/-- The proof of an input formula concludes it. -/
theorem inputProof_ensures {f : TermId} :
    (g.inputProof f).Ensures s fun proof after =>
      after.size = s.size ∧ ∀ p ∈ proof, p.conclusion = f := by
  unfold inputProof
  split
  · have made : (Proof.asserted f).Ensures s fun p after =>
      after.size = s.size ∧ p.conclusion = f := ⟨rfl, rfl⟩
    refine Terms.ensures_bind made fun p after _ known => Terms.ensures_pure ⟨known.1, ?_⟩
    rintro _ ⟨⟩
    exact known.2
  · exact Terms.ensures_pure ⟨rfl, nofun⟩

/-- Every operation keeps the normal form. -/
theorem apply_wellFormed {operation : Operation} (known : g.WellFormed s)
    (valid : operation.Valid s g) :
    (operation.apply g).Ensures s fun g' after => g'.WellFormed after := by
  -- An input formula is asserted with a proof of it.
  have input : ∀ {f : TermId} (deps : Option DependencySet), f < s.size →
      (g.inputProof f >>= fun proof => g.assertEntry ⟨f, proof, deps⟩).Ensures s
        fun g' after => g'.WellFormed after := by
    intro f deps inside
    refine Terms.ensures_bind inputProof_ensures fun proof after grown made => ?_
    exact assertEntry_wellFormed (known.mono grown) ⟨grown.lt_size inside, made.2⟩
  cases operation with
  | assert f => exact input none valid
  | track f => exact input _ valid
  | enter e => exact assertEntry_wellFormed known valid
  | update slot e => exact update_wellFormed known valid.2
  | elimRedundancies => exact elimRedundancies_wellFormed known
  | deeper => exact Terms.ensures_pure known.deeper
  | clear => exact Terms.ensures_pure known.cleared

/-- A goal that a sequence of valid operations makes of an empty one, while the store may grow
between them. -/
inductive Reachable : Goal → Store → Prop
  /-- The empty goal. -/
  | new {models proofs cores : Bool} {g : Goal} (made : Goal.new models proofs cores = .ok g)
    (s : Store) : Reachable g s
  /-- The same goal in a store that has grown. -/
  | later {g : Goal} {s after : Store} (reached : Reachable g s) (grown : s.Extends after) :
    Reachable g after
  /-- One more operation. -/
  | step {g : Goal} {s : Store} {operation : Operation} (reached : Reachable g s)
    (valid : operation.Valid s g) :
    Reachable ((operation.apply g).run s).1 ((operation.apply g).run s).2

/-- A goal that is reached by operations is in normal form. -/
theorem Reachable.wellFormed (reached : Reachable g s) : g.WellFormed s := by
  induction reached with
  | new made s => exact .of_new made s
  | later _ grown known => exact known.mono grown
  | step _ valid known => exact apply_wellFormed known valid

end Operations

section Conjunctions

variable {I : Interpretation}

/-- A goal in normal form is lawful. -/
theorem WellFormed.lawful (known : g.WellFormed s) : g.Lawful where
  refuted refuted := by
    have only := known.refuted refuted
    obtain ⟨e, entries, literal⟩ := List.map_eq_singleton_iff.mp only
    exact ⟨e, entries, literal⟩
  kept e member := by
    unfold keptDeps
    split
    · rfl
    · next dropped =>
      cases present : e.deps with
      | none => rfl
      | some deps => exact absurd (known.tracked e member (by rw [present]; rfl)) dropped

/-- The formulas of a goal in normal form have truth values. -/
theorem WellFormed.justified (known : g.WellFormed s) (I : Interpretation) :
    g.Justified I.reading .none s := by
  refine ⟨known.lawful, fun e member => ?_⟩
  obtain ⟨p, bit⟩ := I.exists_bit (known.inside _ (List.mem_map_of_mem member))
  exact ⟨p, bit, fun _ _ _ _ => trivial, False.elim⟩

/-- A goal in normal form is satisfied in the reading of an interpretation if all its formulas
hold. -/
theorem WellFormed.satisfied_iff (known : g.WellFormed s) :
    g.Satisfied I.reading s ↔ I.HoldAll s g.formulas := by
  unfold Satisfied Interpretation.HoldAll formulas
  rw [List.forall_mem_map]
  refine forall₂_congr fun e member => ?_
  exact Interpretation.reading_bit_true (known.inside _ (List.mem_map_of_mem member))

/-- A computation whose goal is satisfied exactly under a condition. -/
theorem ensures_holdAll {work : Terms Goal} {condition : Prop}
    (normal : work.Ensures s fun g' after => g'.WellFormed after)
    (forward : work.Ensures s fun g' after => g'.Satisfied I.reading after → condition)
    (backward : condition → work.Ensures s fun g' after => g'.Satisfied I.reading after) :
    work.Ensures s fun g' after => I.HoldAll after g'.formulas ↔ condition :=
  (normal.and (forward.and (Terms.ensures_forall backward))).imp
    fun _ _ _ ⟨normal, forward, backward⟩ =>
      normal.satisfied_iff.symm.trans ⟨forward, backward⟩

/-- An assertion adds a formula to the conjunction. -/
theorem assertEntry_holdAll (known : g.WellFormed s) (concluded : e.Concluded s)
    (I : Interpretation) :
    (g.assertEntry e).Ensures s fun g' after =>
      I.HoldAll after g'.formulas ↔ I.HoldAll s g.formulas ∧ I.holds (s.tree e.formula) := by
  obtain ⟨p, bit⟩ := I.exists_bit concluded.inside
  have readable := known.justified I
  refine ensures_holdAll (assertEntry_wellFormed known concluded) ?_ ?_
  · refine (assertEntry_justified readable bit (fun _ _ _ _ => trivial) False.elim).imp ?_
    intro g' after grown result satisfied
    obtain ⟨before, holds⟩ := result.2.2 satisfied
    exact ⟨known.satisfied_iff.mp (readable.satisfied_of_extends grown before), bit.2.mpr holds⟩
  · rintro ⟨before, holds⟩
    have justified := readable.of_satisfied (known.satisfied_iff.mpr before)
    exact (assertEntry_justified justified bit (fun _ _ _ _ => trivial)
      fun _ => bit.2.mp holds).imp fun _ _ _ result => result.2.1.satisfied

/-- A goal with another formula in a slot is satisfied if the formula and those of the other slots
are true. -/
theorem holdAll_set {slot : ℕ} {f : TermId} (inside : slot < g.size) :
    I.HoldAll s (g.formulas.set slot f) ↔ I.holds (s.tree f) ∧
      ∀ k d, k ≠ slot → g.entries[k]? = some d → I.holds (s.tree d.formula) := by
  have length : slot < g.formulas.length := by simpa [formulas, size] using inside
  unfold Interpretation.HoldAll
  simp only [List.mem_iff_getElem?]
  constructor
  · intro all
    refine ⟨all f ⟨slot, List.getElem?_set_self length⟩, fun k d other found => ?_⟩
    refine all d.formula ⟨k, ?_⟩
    rw [List.getElem?_set_ne (Ne.symm other), formulas, List.getElem?_map, found]
    rfl
  · rintro ⟨here, others⟩ t ⟨k, found⟩
    by_cases same : k = slot
    · rw [same, List.getElem?_set_self length] at found
      exact Option.some.inj found ▸ here
    · rw [List.getElem?_set_ne (Ne.symm same), formulas, List.getElem?_map] at found
      obtain ⟨d, entry, rfl⟩ := Option.map_eq_some_iff.mp found
      exact others k d same entry

/-- The goal with `true` in a slot. -/
def vacated (g : Goal) (slot : ℕ) : Goal :=
  { g with entries := g.entries.set slot ⟨Store.trueId, none, none⟩ }

/-- What was in a slot does not matter to an update of it. -/
theorem vacated_update {slot : ℕ} (consistent : g.inconsistent = false) :
    (g.vacated slot).update slot e = g.update slot e := by
  have still : (g.vacated slot).inconsistent = false := consistent
  unfold update
  rw [if_neg (by simp [still]), if_neg (by simp [consistent]), vacated]
  simp only [List.set_set]
  rfl

/-- A goal in normal form stays in it when a slot is vacated. -/
theorem WellFormed.vacated (known : g.WellFormed s) (consistent : g.inconsistent = false)
    (slot : ℕ) : (g.vacated slot).WellFormed s := by
  refine known.of_entries consistent fun d member => ?_
  rcases List.mem_or_eq_of_mem_set member with old | rfl
  · exact .inl old
  · exact .inr ⟨.inr ⟨rfl, nofun⟩, nofun⟩

/-- An update replaces a formula of the conjunction. -/
theorem update_holdAll {slot : ℕ} (known : g.WellFormed s) (concluded : e.Concluded s)
    (inside : slot < g.size) (consistent : g.inconsistent = false) (I : Interpretation) :
    (g.update slot e).Ensures s fun g' after =>
      I.HoldAll after g'.formulas ↔ I.HoldAll s (g.formulas.set slot e.formula) := by
  obtain ⟨p, bit⟩ := I.exists_bit concluded.inside
  refine ensures_holdAll (update_wellFormed known concluded) ?_ ?_
  · refine (update_justified (known.justified I) inside bit (fun _ _ _ _ => trivial)
      False.elim).imp ?_
    intro g' after grown result satisfied
    obtain ⟨holds, others⟩ := result.2.2 satisfied
    refine (holdAll_set inside).mpr ⟨bit.2.mpr holds, fun k d other found => ?_⟩
    have within := known.inside _ (List.mem_map_of_mem (List.mem_of_getElem? found))
    rw [← grown.tree_eq within]
    exact (others k d other found).2.mpr rfl
  · intro all
    obtain ⟨holds, others⟩ := (holdAll_set inside).mp all
    -- The formula that is replaced may be false, so the slot is vacated first.
    rw [← vacated_update consistent]
    have normal := known.vacated consistent slot
    have before : I.HoldAll s (g.vacated slot).formulas := by
      rw [formulas, vacated, List.map_set]
      exact (holdAll_set inside).mpr ⟨(I.reading.trueId s).2.mpr rfl, others⟩
    have justified := (normal.justified I).of_satisfied (normal.satisfied_iff.mpr before)
    have fits : slot < (g.vacated slot).entries.length := by
      rwa [vacated, List.length_set]
    exact (update_justified justified fits bit (fun _ _ _ _ => trivial)
      fun _ => bit.2.mp holds).imp fun _ _ _ result => result.2.1.satisfied

/-- Dropping redundant formulas does not change the conjunction. -/
theorem elimRedundancies_holdAll (known : g.WellFormed s) (I : Interpretation) :
    g.elimRedundancies.Ensures s fun g' after =>
      I.HoldAll after g'.formulas ↔ I.HoldAll s g.formulas := by
  have readable := known.justified I
  refine ensures_holdAll (elimRedundancies_wellFormed known) ?_ ?_
  · refine (elimRedundancies_justified readable).imp fun g' after grown result satisfied => ?_
    exact known.satisfied_iff.mp (readable.satisfied_of_extends grown (result.2.2 satisfied))
  · intro before
    have justified := readable.of_satisfied (known.satisfied_iff.mpr before)
    exact (elimRedundancies_justified justified).imp fun _ _ _ result => result.2.1.satisfied

/-- Every sequence of operations leaves a goal in normal form, with one proof and one set of
dependencies beside each formula. Under every interpretation, asserting a formula adds it to the
conjunction of the formulas, an update of a goal that is not refuted replaces the formula of a slot,
and dropping redundant formulas changes nothing. -/
theorem operations_normal (reached : Reachable g s) : g.WellFormed s ∧
    (g.entries.map Entry.proof).length = g.formulas.length ∧
    (g.entries.map Entry.deps).length = g.formulas.length ∧
    ∀ I : Interpretation,
      (∀ e : Entry, e.Concluded s → (g.assertEntry e).Ensures s fun g' after =>
        (I.HoldAll after g'.formulas ↔ I.HoldAll s g.formulas ∧ I.holds (s.tree e.formula))) ∧
      (∀ (slot : ℕ) (e : Entry), slot < g.size → e.Concluded s → g.inconsistent = false →
        (g.update slot e).Ensures s fun g' after =>
          (I.HoldAll after g'.formulas ↔ I.HoldAll s (g.formulas.set slot e.formula))) ∧
      g.elimRedundancies.Ensures s fun g' after =>
        (I.HoldAll after g'.formulas ↔ I.HoldAll s g.formulas) := by
  have normal := reached.wellFormed
  refine ⟨normal, by simp [formulas], by simp [formulas], fun I => ⟨?_, ?_, ?_⟩⟩
  · exact fun e concluded => assertEntry_holdAll normal concluded I
  · exact fun slot e inside concluded consistent =>
      update_holdAll normal concluded inside consistent I
  · exact elimRedundancies_holdAll normal I

/-- A conjunction of two constants. -/
def conjunction : Terms TermId := do
  let p ← Terms.mkVar "p" .bool
  let q ← Terms.mkVar "q" .bool
  Terms.mkAnd [p, q]

/-- A conjunction is built of the constants. -/
theorem conjunction_ensures : conjunction.Ensures s fun f after =>
    f < after.size ∧ after.op f = .and := by
  refine Terms.ensures_bind (Terms.mkVar_node "p" .bool) fun p middle _ first => ?_
  refine Terms.ensures_bind (Terms.mkVar_node "q" .bool) fun q later grown second => ?_
  have inside : ∀ a ∈ [p, q], a < later.size := by simp [grown.lt_size first.1, second.1]
  have built : (Terms.mkApp .and [p, q]).Ensures later _ := Terms.mkApp_node inside
  refine built.imp fun f after _ found => ⟨found.1, ?_⟩
  rw [Store.op, found.2]

/-- A conjunction that is asserted with its proof is no formula of the goal: the formulas of the goal
are parts of it that say together what the conjunction says. -/
theorem operations_normal_case : ∃ (start : Goal) (s : Store) (f : TermId),
    Goal.new true true false = .ok start ∧ s.op f = .and ∧
      (start.assertEntry ⟨f, some (.step 0 .asserted [] f), none⟩).Ensures s fun g after =>
        g.WellFormed after ∧ f ∉ g.formulas ∧
          ∀ I : Interpretation, I.HoldAll after g.formulas ↔ I.holds (s.tree f) := by
  obtain ⟨f, s, inside, head⟩ : ∃ (f : TermId) (s : Store), f < s.size ∧ s.op f = .and :=
    ⟨_, _, conjunction_ensures (s := .initial)⟩
  obtain ⟨start, made⟩ : ∃ start, Goal.new true true false = .ok start := ⟨_, rfl⟩
  have empty : start.formulas = [] := by
    obtain rfl := Except.ok.inj made
    rfl
  refine ⟨start, s, f, made, head, ?_⟩
  have concluded : Entry.Concluded s ⟨f, some (.step 0 .asserted [] f), none⟩ :=
    ⟨inside, by rintro p ⟨⟩; rfl⟩
  have first : Reachable start s := .new made s
  have valid : (Operation.enter ⟨f, some (.step 0 .asserted [] f), none⟩).Valid s start := concluded
  have grown := (start.assertEntry ⟨f, some (.step 0 .asserted [] f), none⟩).grows s
  obtain ⟨-, -, -, meaning⟩ := operations_normal first
  obtain ⟨normal, -⟩ := operations_normal (first.step valid)
  refine ⟨normal, normal.not_mem_of_and ((grown.op_eq inside).trans head), fun I => ?_⟩
  have adds := (meaning I).1 _ concluded
  rw [empty] at adds
  exact adds.trans (and_iff_right nofun)

end Conjunctions

end Goal
end Stratagem
