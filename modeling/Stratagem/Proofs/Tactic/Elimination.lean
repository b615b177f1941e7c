import Stratagem.Proofs.Tactic.Definition
import Stratagem.Proofs.Tactic.Simplify

/-!
# Elimination keeps what goals say

A goal whose defined constants are eliminated is justified if the goal is. An assignment that
satisfies it satisfies the goal once the constants have the values of their definitions: the last
definition is read first, as a definition may speak of constants that are eliminated later.
-/
namespace Stratagem

open Store (Extends)
open DependencySet (Covered)

namespace Assignment

variable {I : Assignment} {Γ : Signature} {name other : String} {sort kind : TermSort} {v : Value}

open Classical in
/-- The assignment with another value of a constant. -/
noncomputable def assign (I : Assignment) (name : String) : TermSort → Value → Assignment
  | .int, v => { I with integer := Function.update I.integer name ⌊v.num⌋ }
  | .real, v => { I with real := Function.update I.real name v.num }
  | .bool, v => { I with truth := Function.update I.truth name v.holds }
  | _, _ => I

/-- The constant has the value. -/
theorem constant_assign (typed : v.HasSort sort) (known : sort = .bool ∨ sort.isArith) :
    (I.assign name sort v).constant name sort = v := by
  cases sort with
  | bool =>
    rw [Value.eq_truth typed]
    simp [assign, constant]
  | int =>
    obtain ⟨n, whole⟩ := Value.mem_integers.mp (Value.num_mem_integers typed)
    rw [Value.eq_number rfl typed, whole]
    simp [assign, constant]
  | real =>
    rw [Value.eq_number rfl typed]
    simp [assign, constant]
  | _ => simp [TermSort.isArith] at known

/-- Other constants keep their values. -/
theorem constant_assign_of_ne (differ : ¬(other = name ∧ kind = sort))
    (known : kind = .bool ∨ kind.isArith) :
    (I.assign name sort v).constant other kind = I.constant other kind := by
  cases kind with
  | bool | int | real =>
    cases sort <;> simp_all [assign, constant, Function.update_apply]
  | _ => simp [TermSort.isArith] at known

/-- The assignments agree on terms without the constant. -/
theorem assign_agreeOn_without : (I.assign name sort v).AgreeOn I (Γ.without name sort) :=
  fun _ _ known kind => constant_assign_of_ne known.2 kind

/-- The value that a constant has changes nothing. -/
theorem assign_agreeOn (typed : v.HasSort sort) (same : I.constant name sort = v) :
    (I.assign name sort v).AgreeOn I Γ := by
  intro other kind _ known
  by_cases here : other = name ∧ kind = sort
  · obtain ⟨rfl, rfl⟩ := here
    rw [constant_assign typed known, same]
  · exact constant_assign_of_ne here known

end Assignment

namespace Store.Defines

variable {s : Store} {Γ : Signature} {f x body : TermId} {name : String} {sort : TermSort}

/-- The constant has its value. -/
theorem value_eq (known : s.Defines Γ f x body name sort) (I : Assignment) :
    s.value I x = I.constant name sort := by
  rw [Store.value_eq, Store.op, Store.sortOf, known.node]
  rfl

/-- The value of a definition has the sort of the constant. -/
theorem typed (known : s.Defines Γ f x body name sort) (I : Assignment) :
    (s.value I body).HasSort sort :=
  known.sort_eq ▸ known.sorted.hasSort

/-- The sort of the constant is one of booleans or numbers. -/
theorem sort_cases (known : s.Defines Γ f x body name sort) : sort = .bool ∨ sort.isArith :=
  known.sort_eq ▸ known.sorted.sort_cases

/-- Replacing the constant by its definition leads from terms to terms without the constant, read
under the assignment where the constant has the value of its definition. -/
theorem links (known : s.Defines Γ f x body name sort) (I : Assignment) :
    s.Links (.ofList [(x, body)]) Γ (Γ.without name sort) I
      (I.assign name sort (s.value I body)) where
  constants k image found := by
    obtain ⟨rfl, rfl⟩ := Substitution.getElem?_single.mp found
    exact ⟨name, sort, known.node⟩
  sorted k image found := by
    obtain ⟨rfl, rfl⟩ := Substitution.getElem?_single.mp found
    exact known.sorted
  sorts k image found := by
    obtain ⟨rfl, rfl⟩ := Substitution.getElem?_single.mp found
    rw [known.sort_eq, Store.sortOf, known.node]
  values k image found := by
    obtain ⟨rfl, rfl⟩ := Substitution.getElem?_single.mp found
    rw [known.value_eq, Assignment.constant_assign (known.typed I) known.sort_cases]
  others other kind constant typed absent := by
    have differ : ¬(other = name ∧ kind = sort) := by
      rintro ⟨rfl, rfl⟩
      exact absent x body (Substitution.getElem?_single.mpr ⟨rfl, rfl⟩) known.node
    exact ⟨⟨constant, differ⟩, (Assignment.constant_assign_of_ne differ typed).symm⟩
  casts := id

/-- Once the constant has the value of its definition, it has that value: the constant does not
occur in the definition. -/
theorem value_assign (known : s.Defines Γ f x body name sort) (I : Assignment) :
    s.value (I.assign name sort (s.value I body)) x =
      s.value (I.assign name sort (s.value I body)) body := by
  rw [known.value_eq, Assignment.constant_assign (known.typed I) known.sort_cases,
    known.sorted.value_congr Assignment.assign_agreeOn_without]

end Store.Defines

namespace Goal

variable {Γ Δ : Signature} {A : Assumptions} {I : Assignment} {s after : Store} {g : Goal}

/-- The formulas of a goal are well-sorted formulas. -/
def Sorted (Γ : Signature) (s : Store) (g : Goal) : Prop :=
  ∀ e ∈ g.entries, s.WellSorted Γ e.formula ∧ s.sortOf e.formula = .bool

/-- The formulas of a justified goal are well-sorted. -/
theorem Justified.sorted (known : g.Justified (I.reading Γ) A s) : g.Sorted Γ s := by
  intro e member
  obtain ⟨p, bit, _⟩ := known.entries e member
  exact ⟨bit.sorted, bit.sort_eq⟩

/-- Well-sorted formulas have truth values under every assignment. -/
theorem Sorted.justified (sorted : g.Sorted Γ s) (lawful : g.Lawful) (I : Assignment) :
    g.Justified (I.reading Γ) .none s where
  toLawful := lawful
  entries e member := by
    obtain ⟨p, bit⟩ := Store.Formula.exists_bit (sorted e member).1 (sorted e member).2 I
    exact ⟨p, bit, fun _ _ _ _ => trivial, False.elim⟩

/-- Formulas stay well-sorted when the store grows. -/
theorem Sorted.mono (sorted : g.Sorted Γ s) (grown : s.Extends after) : g.Sorted Γ after :=
  fun e member =>
    have known := sorted e member
    ⟨known.1.mono grown, (grown.sortOf_eq known.1.inside).trans known.2⟩

/-- The conjuncts of a well-sorted formula are well-sorted. -/
theorem flatten_wellSorted {f : TermId} {proof : Option Proof} (sorted : s.WellSorted Γ f)
    (bool : s.sortOf f = .bool) : (flatten f proof).Ensures s fun parts after =>
      ∀ part ∈ parts, after.WellSorted Γ part.1 := by
  obtain ⟨p, bit⟩ := Store.Formula.exists_bit sorted bool default
  have value : ((default : Assignment).reading Γ).Bit s f p := bit
  apply (flatten_bits value).imp
  rintro parts after _ ⟨ps, bits, _⟩ part member
  obtain ⟨_, _, bit⟩ := exists_of_forall₂ bits member
  exact bit.sorted

end Goal

namespace EquationSolver

open Attempt Goal

variable {Γ : Signature} {base s after : Store} {start g : Goal} {slot next : ℕ} {e origin : Entry}
  {d : Definition} {name : String} {sort : TermSort} {r : Simplifier} {context : Context}
  {t u : TermId}

/-- A formula without a defined constant in the place of another one: the formulas are equally true
where the constant has the value of its definition. -/
structure Replaces (Γ : Signature) (d : Definition) (name : String) (sort : TermSort) (s : Store)
    (u t : TermId) : Prop where
  /-- The constant does not occur in the formula. -/
  sorted : s.WellSorted (Γ.without name sort) u
  /-- The formula is boolean. -/
  bool : s.sortOf u = .bool
  /-- The formulas are equally true where the constant has the value of its definition. -/
  value_eq : ∀ I, s.value I d.1 = s.value I d.2 → s.value I u = s.value I t

/-- Replacing the constant by its definition and simplifying gives such a formula. -/
theorem Replaces.of_stands {f image : TermId} {middle : Store}
    (defines : s.Defines Γ f d.1 d.2 name sort) (sorted : s.WellSorted Γ t)
    (bool : s.sortOf t = .bool) (grown : s.Extends middle)
    (stands : ∀ I : Assignment, middle.Stands (Γ.without name sort) I
      (I.assign name sort (s.value I d.2)) image t) (more : middle.Extends after)
    (replaced : after.Replaces (Γ.without name sort).strict u image) :
    Replaces Γ d name sort after u t where
  sorted := replaced.sorted.mono_within (.refl after) (Signature.strict_within _)
  bool := by
    rw [replaced.sort_eq, more.sortOf_eq (stands default).sorted.inside, (stands default).sort_eq,
      grown.sortOf_eq sorted.inside, bool]
  value_eq I same := by
    have later := grown.trans more
    rw [later.value_eq I defines.constant.inside, later.value_eq I defines.sorted.inside,
      defines.value_eq] at same
    have agree := Assignment.assign_agreeOn (Γ := Γ) (defines.typed I) same
    rw [replaced.value_eq, more.value_eq I (stands I).sorted.inside, (stands I).value_eq,
      later.value_eq I sorted.inside, grown.value_eq _ sorted.inside, sorted.value_congr agree]

/-- The formulas say the same also when the store grows. -/
theorem Replaces.mono {f : TermId} (known : Replaces Γ d name sort s u t)
    (defines : s.Defines Γ f d.1 d.2 name sort) (inside : t < s.size) (grown : s.Extends after) :
    Replaces Γ d name sort after u t where
  sorted := known.sorted.mono grown
  bool := (grown.sortOf_eq known.sorted.inside).trans known.bool
  value_eq I same := by
    rw [grown.value_eq I defines.constant.inside, grown.value_eq I defines.sorted.inside] at same
    rw [grown.value_eq I known.sorted.inside, grown.value_eq I inside, known.value_eq I same]

/-- What holds of a goal from some slots of which a constant is eliminated. -/
structure Eliminates (Γ : Signature) (d : Definition) (name : String) (sort : TermSort)
    (base : Store) (start : Goal) (finished : ℕ → Prop) (g : Goal) (s : Store) : Prop where
  /-- The store has grown. -/
  grown : base.Extends s
  /-- The goals produce the same. -/
  alike : start.Alike g
  /-- The goal is as goals are built. -/
  lawful : g.Lawful
  /-- The formulas are well-sorted. -/
  sorted : g.Sorted Γ s
  /-- The constant does not occur in the slots that are finished, nor in a refuted goal. -/
  done : ∀ i e, g.entries[i]? = some e → finished i ∨ g.inconsistent = true →
    s.WellSorted (Γ.without name sort) e.formula
  /-- The goal is justified if the one before was. -/
  justified : ∀ (I : Assignment) (A : Assumptions), start.Justified (I.reading Γ) A base →
    g.Justified (I.reading Γ) A s
  /-- Where the constant has the value of its definition, the goal is satisfied only if the one
  before was. -/
  satisfied : ∀ I : Assignment, s.value I d.1 = s.value I d.2 → g.Satisfied (I.reading Γ) s →
    start.Satisfied (I.reading Γ) s

namespace Eliminates

variable {finished wider : ℕ → Prop} {k : ℕ} {deps : Option DependencySet}

/-- No slot is finished yet. -/
theorem refl (posed : g.Sorted Γ s) (lawful : g.Lawful) (consistent : g.inconsistent = false) :
    Eliminates Γ d name sort s g (fun _ => False) g s where
  grown := .refl s
  alike := .refl g
  lawful := lawful
  sorted := posed
  done _ _ _ finished := by
    rw [consistent] at finished
    cases finished <;> contradiction
  justified _ _ known := known
  satisfied _ _ satisfied := satisfied

/-- What holds of the goal lasts while the store grows. -/
theorem mono (known : Eliminates Γ d name sort base start finished g s)
    (defines : s.Defines Γ t d.1 d.2 name sort) (grown : s.Extends after) :
    Eliminates Γ d name sort base start finished g after where
  grown := known.grown.trans grown
  alike := known.alike
  lawful := known.lawful
  sorted := known.sorted.mono grown
  done i e there finished := (known.done i e there finished).mono grown
  justified I A justified := (known.justified I A justified).mono grown
  satisfied I same satisfied := by
    rw [grown.value_eq I defines.constant.inside, grown.value_eq I defines.sorted.inside] at same
    have before := (known.sorted.justified known.lawful I).satisfied_of_extends grown satisfied
    exact (known.satisfied I same before).mono grown

/-- Other slots may be finished if the constant does not occur in them. -/
theorem widen (known : Eliminates Γ d name sort base start finished g s)
    (done : ∀ i e, g.entries[i]? = some e → wider i →
      finished i ∨ s.WellSorted (Γ.without name sort) e.formula) :
    Eliminates Γ d name sort base start wider g s where
  __ := known
  done i e there its := by
    rcases its with wide | refuted
    · exact (done i e there wide).elim (fun old => known.done i e there (.inl old)) id
    · exact known.done i e there (.inr refuted)

/-- A formula without the constant takes the slot of a formula that says the same where the constant
has the value of its definition. -/
theorem update (proof : Option Proof) (known : Eliminates Γ d name sort base start finished g s)
    (defines : s.Defines Γ t d.1 d.2 name sort) (found : g.entries[k]? = some e)
    (consistent : g.inconsistent = false) (replaces : Replaces Γ d name sort s u e.formula)
    (kept : g.keptDeps deps = deps)
    (holds : ∀ (I : Assignment) (A : Assumptions), start.Justified (I.reading Γ) A base →
      Covered A.tracked deps ∧ (A.Active deps → s.holds I u)) :
    (g.update k ⟨u, proof, deps⟩).Ensures s fun g' after =>
      Eliminates Γ d name sort base start (fun i => finished i ∨ i = k) g' after := by
  have inside : k < g.entries.length := (List.getElem?_eq_some_iff.mp found).1
  have wide := replaces.sorted.mono_within (.refl s) (Signature.without_within Γ name sort)
  have value (I : Assignment) : ∃ p, (I.reading Γ).Bit s u p :=
    Store.Formula.exists_bit wide replaces.bool I
  have justified (I : Assignment) (A : Assumptions) :
      (g.update k ⟨u, proof, deps⟩).Ensures s fun g' after =>
        start.Justified (I.reading Γ) A base → g'.Justified (I.reading Γ) A after := by
    apply Terms.ensures_forall
    intro before
    obtain ⟨p, bit⟩ := value I
    obtain ⟨tracked, active⟩ := holds I A before
    have true (all : A.Active (g.keptDeps deps)) : p = true :=
      Store.Formula.holds_iff bit |>.mp (active (kept ▸ all))
    exact (update_justified (e := ⟨u, proof, deps⟩) (known.justified I A before) inside bit
      (kept.symm ▸ tracked) true).imp fun _ _ _ result => result.2.1
  have result (I : Assignment) : (g.update k ⟨u, proof, deps⟩).Ensures s fun g' after =>
      g.Alike g' ∧ g'.Justified (I.reading Γ) .none after ∧
        (s.value I d.1 = s.value I d.2 → g'.Satisfied (I.reading Γ) after →
          g.Satisfied (I.reading Γ) after) := by
    obtain ⟨p, bit⟩ := value I
    apply (update_justified (e := ⟨u, proof, deps⟩) (known.sorted.justified known.lawful I) inside bit
      (fun _ _ _ _ => trivial) False.elim).imp
    rintro g' after grown ⟨alike, justified, satisfied⟩
    refine ⟨alike, justified, fun same all e' member => ?_⟩
    obtain ⟨rfl, others⟩ := satisfied all
    obtain ⟨i, there⟩ := List.mem_iff_getElem?.mp member
    by_cases here : i = k
    · subst here
      obtain rfl := Option.some.inj (found.symm.trans there)
      obtain ⟨sorted, bool⟩ := known.sorted e (List.mem_of_getElem? found)
      have old : s.Formula Γ I e.formula (true = true) :=
        ⟨sorted, bool, (replaces.value_eq I same).symm.trans (Store.Denotes.value_eq bit)⟩
      exact old.mono grown
    · exact others i e' here there
  have shape : (g.update k ⟨u, proof, deps⟩).Ensures s _ :=
    update_ensures (flatten_wellSorted replaces.sorted replaces.bool)
  apply (((Terms.ensures_forall fun I => Terms.ensures_forall (justified I)).and
    (Terms.ensures_forall result)).and shape).imp
  rintro g' after grown ⟨⟨justified, result⟩, outcome⟩
  obtain ⟨alike, readable, -⟩ := result default
  refine ⟨known.grown.trans grown, known.alike.trans alike, readable.toLawful, readable.sorted,
    fun i e' there its => ?_, justified, fun I same satisfied => ?_⟩
  · rcases outcome with ⟨refuted, _⟩ | ⟨_, parts, sorted, outcome⟩
    · rw [consistent] at refuted
      cases refuted
    rcases outcome with ⟨part, _, literal, rfl⟩ | ⟨_, entries, rfl, rfl⟩
    · obtain rfl := List.mem_singleton.mp (List.mem_of_getElem? there)
      exact (Terms.formula_falseId (I := default) after).sorted
    · rcases placed_cases there with ⟨other, there⟩ | ⟨_, added⟩ | ⟨_, _, rfl⟩
      · refine (known.done i e' there ?_).mono grown
        exact its.imp (fun either => either.resolve_right other) id
      · obtain ⟨part, member, rfl⟩ := List.mem_map.mp added
        exact sorted part member
      · exact (Terms.formula_trueId (I := default) after).sorted
  · rw [grown.value_eq I defines.constant.inside, grown.value_eq I defines.sorted.inside] at same
    have before := (result I).2.2 same satisfied
    have before := (known.sorted.justified known.lawful I).satisfied_of_extends grown before
    exact (known.satisfied I same before).mono grown

end Eliminates

/-- The formula that defines the constant is replaced by `true`. -/
theorem cleared_ensures (posed : g.Sorted Γ s) (lawful : g.Lawful)
    (consistent : g.inconsistent = false) (there : g.entries[slot]? = some origin)
    (defines : s.Defines Γ origin.formula d.1 d.2 name sort) :
    (g.update slot ⟨Store.trueId, none, none⟩).Ensures s fun g' after =>
      Eliminates Γ d name sort s g (· = slot) g' after := by
  have truth (Δ : Signature) (I : Assignment) := Terms.formula_trueId (Γ := Δ) (I := I) s
  have replaces : Replaces Γ d name sort s Store.trueId origin.formula := by
    refine ⟨(truth _ default).sorted, (truth Γ default).sort_eq, fun I same => ?_⟩
    obtain ⟨sorted, bool⟩ := posed origin (List.mem_of_getElem? there)
    obtain ⟨p, bit⟩ := Store.Formula.exists_bit sorted bool I
    have true : p = true := bit.holds_iff.mp ((defines.holds I).mpr same)
    rw [(truth Γ I).value_eq, bit.value_eq, true]
    simp
  have updated := (Eliminates.refl posed lawful consistent).update none defines there consistent
    replaces (g.keptDeps_none) fun I A _ => ⟨by simp, fun _ => (truth Γ I).holds_iff.mpr trivial⟩
  exact updated.imp fun g' after _ known => known.widen fun i e there its => .inl (.inr its)

/-- Replacing the constant in the formula of a slot. -/
theorem replaceIn_ensures (lawful : start.Lawful)
    (known : Eliminates Γ d name sort base start (fun i => i < next ∨ i = slot) g s)
    (inside : origin.formula < base.size)
    (defines : base.Defines Γ origin.formula d.1 d.2 name sort)
    (there : start.entries[slot]? = some origin) (found : g.entries[next]? = some e)
    (consistent : g.inconsistent = false) (sound : r.Sound s) :
    (replaceIn context slot origin d next e g).Ensures r s (fun g' r' after => r'.Sound after ∧
      Eliminates Γ d name sort base start (fun i => i < next + 1 ∨ i = slot) g' after)
      fun _ _ _ => True := by
  have here := defines.mono inside known.grown
  have inside := known.grown.lt_size inside
  have member := List.mem_of_getElem? found
  obtain ⟨sorted, bool⟩ := known.sorted e member
  unfold replaceIn
  apply ensures_read_bind
  split
  · have single : (Std.HashMap.ofList [d]).isEmpty = false := by
      rw [Std.HashMap.ofList_singleton, Std.HashMap.isEmpty_insert]
    apply ensures_build_bind (Terms.ensures_forall fun I =>
      Terms.substitute_ensures (here.links I) sorted single)
    intro image middle grown stands
    apply ensures_bind (Rewriting.simplifyIn_ensures (sound.mono grown))
    rintro u r' last more ⟨sound, replaces⟩
    have replaces := Replaces.of_stands here sorted bool grown stands more
      (replaces _ (stands default).sorted)
    apply ensures_build_bind_of_all
    intro proof now further
    have later := grown.trans more
    have whole := later.trans further
    have defines := here.mono inside whole
    have replaces := replaces.mono (here.mono inside later) (later.lt_size sorted.inside) further
    have known := known.mono here whole
    have kept (I : Assignment) (A : Assumptions) (before : start.Justified (I.reading Γ) A base) :
        Covered A.tracked (DependencySet.join e.deps origin.deps) ∧
          (A.Active (DependencySet.join e.deps origin.deps) → now.holds I u) := by
      obtain ⟨q, old, tracked, holds⟩ := (known.justified I A before).entries e member
      obtain ⟨o, first, depends, active⟩ := before.entries origin (List.mem_of_getElem? there)
      refine ⟨(DependencySet.covered_join ..).mpr ⟨tracked, depends⟩, fun both => ?_⟩
      -- What defines the constant is true, so the constant has the value of its definition.
      obtain ⟨its, origins⟩ := A.of_join both
      have equation := (defines.holds I).mp
        ((first.mono (known.grown)).holds_iff.mpr (active origins))
      rw [Store.holds, replaces.value_eq I equation]
      exact old.holds_iff.mpr (holds its)
    have deps : g.keptDeps (DependencySet.join e.deps origin.deps) =
        DependencySet.join e.deps origin.deps := by
      rw [keptDeps_join, known.lawful.kept e member, known.alike.keptDeps_eq,
        lawful.kept origin (List.mem_of_getElem? there)]
    have updated : (Attempt.build (g.update next ⟨u, proof, _⟩) : Rewriting Goal).Ensures r' now
        (fun g' state after => state = r' ∧ Eliminates Γ d name sort base start _ g' after)
        fun _ _ _ => True :=
      ensures_build (known.update proof defines found consistent replaces deps kept)
    refine updated.imp (fun g' state after last result => ?_) fun _ _ _ _ _ => trivial
    refine ⟨result.1 ▸ (sound.mono further).mono last, result.2.widen fun i e there its => .inl ?_⟩
    omega
  · next other =>
    refine ensures_pure ⟨sound, known.widen fun i e' there its => ?_⟩
    by_cases here' : i = next ∧ i ≠ slot
    · obtain ⟨rfl, differ⟩ := here'
      obtain rfl := Option.some.inj (found.symm.trans there)
      have absent : s.occurs d.1 e.formula = false := by simpa [differ] using other
      exact .inr (sorted.without here.node absent)
    · exact .inl (by omega)

end EquationSolver

namespace Store

variable {Γ : Signature} {s after : Store} {d : Definition}

/-- A definition is one of a constant by a term of its sort. -/
structure IsDefinition (s : Store) (Γ : Signature) (d : Definition) : Prop where
  /-- A constant is defined. -/
  constant : ∃ name, s.node d.1 = ⟨.var name, [], s.sortOf d.1⟩
  /-- The constant is there. -/
  inside : d.1 < s.size
  /-- The constant is defined by a well-sorted term. -/
  sorted : s.WellSorted Γ d.2
  /-- The term has the sort of the constant. -/
  sort_eq : s.sortOf d.2 = s.sortOf d.1

/-- Definitions stay definitions when the store grows. -/
theorem IsDefinition.mono (known : s.IsDefinition Γ d) (grown : s.Extends after) :
    after.IsDefinition Γ d where
  constant := by
    rw [grown.node_eq known.inside, grown.sortOf_eq known.inside]
    exact known.constant
  inside := grown.lt_size known.inside
  sorted := known.sorted.mono grown
  sort_eq := by
    rw [grown.sortOf_eq known.inside, grown.sortOf_eq known.sorted.inside, known.sort_eq]

/-- The assignment in which the constant of a definition has the value of the definition. -/
noncomputable def define (s : Store) (I : Assignment) (d : Definition) : Assignment :=
  match s.op d.1 with
  | .var name => I.assign name (s.sortOf d.1) (s.value I d.2)
  | _ => I

/-- The assignment in which the constants of definitions have the values of the definitions, from
the last definition to the first. -/
noncomputable def extended (s : Store) (I : Assignment) (defs : List Definition) : Assignment :=
  defs.foldr (fun d J => s.define J d) I

/-- The constant of a definition is given its value. -/
theorem define_eq {name : String} {sort : TermSort} (node : s.node d.1 = ⟨.var name, [], sort⟩)
    (I : Assignment) : s.define I d = I.assign name sort (s.value I d.2) := by
  rw [define, op, sortOf, node]

/-- Definitions give the same values when the store grows. -/
theorem IsDefinition.define_eq (known : s.IsDefinition Γ d) (grown : s.Extends after)
    (I : Assignment) : after.define I d = s.define I d := by
  unfold define
  rw [grown.op_eq known.inside, grown.sortOf_eq known.inside, grown.value_eq I known.sorted.inside]

/-- Definitions one after the other give the same values when the store grows. -/
theorem extended_eq {defs : List Definition} (known : ∀ d ∈ defs, s.IsDefinition Γ d)
    (grown : s.Extends after) (I : Assignment) : after.extended I defs = s.extended I defs := by
  induction defs with
  | nil => rfl
  | cons d rest tail =>
    obtain ⟨here, others⟩ := List.forall_mem_cons.mp known
    show after.define (after.extended I rest) d = s.define (s.extended I rest) d
    rw [tail others, here.define_eq grown]

end Store

/-- A goal comes from another one by the elimination of constants. -/
structure Goal.Solves (Γ : Signature) (base : Store) (start : Goal) (defs : List Definition)
    (g : Goal) (s : Store) : Prop where
  /-- The goals produce the same. -/
  alike : start.Alike g
  /-- The goal is as goals are built. -/
  lawful : g.Lawful
  /-- The formulas are well-sorted. -/
  sorted : g.Sorted Γ s
  /-- Constants are defined by terms. -/
  definitions : ∀ d ∈ defs, s.IsDefinition Γ d
  /-- The goal is justified if the one before was. -/
  justified : ∀ (I : Assignment) (A : Assumptions), start.Justified (I.reading Γ) A base →
    g.Justified (I.reading Γ) A s
  /-- An assignment that satisfies the goal satisfies the one before once the constants have the
  values of their definitions. -/
  satisfied : ∀ I : Assignment, g.Satisfied (I.reading Γ) s →
    start.Satisfied ((s.extended I defs).reading Γ) s

namespace Goal.Solves

variable {Γ : Signature} {base middle s after : Store} {start g g' : Goal} {d : Definition}
  {defs : List Definition}

/-- Nothing is eliminated. -/
theorem refl (sorted : g.Sorted Γ s) (lawful : g.Lawful) : g.Solves Γ s [] g s where
  alike := .refl g
  lawful := lawful
  sorted := sorted
  definitions := nofun
  justified _ _ known := known
  satisfied _ satisfied := satisfied

/-- What holds of the goal was so when the store was smaller. -/
theorem earlier (known : start.Solves Γ middle defs g s) (grown : base.Extends middle) :
    start.Solves Γ base defs g s where
  __ := known
  justified I A before := known.justified I A (before.mono grown)

/-- One more constant was eliminated before. -/
theorem cons (first : start.Solves Γ base [d] g middle) (grown : middle.Extends s)
    (rest : g.Solves Γ middle defs g' s) : start.Solves Γ base (d :: defs) g' s where
  alike := first.alike.trans rest.alike
  lawful := rest.lawful
  sorted := rest.sorted
  definitions e member := by
    rcases List.mem_cons.mp member with rfl | later
    · exact (first.definitions _ (List.mem_singleton_self _)).mono grown
    · exact rest.definitions e later
  justified I A known := rest.justified I A (first.justified I A known)
  satisfied I satisfied := by
    have before := (first.sorted.justified first.lawful _).satisfied_of_extends grown
      (rest.satisfied I satisfied)
    have known := (first.definitions d (List.mem_singleton_self d)).define_eq grown
    show start.Satisfied ((s.define (s.extended I defs) d).reading Γ) s
    rw [known]
    exact (first.satisfied _ before).mono grown

/-- A goal that follows from one with eliminated constants. -/
theorem follows (known : start.Solves Γ base defs g s) (grown : s.Extends after)
    (follows : ∀ (I : Assignment) (A : Assumptions), g.Justified (I.reading Γ) A s →
      g.Follows (I.reading Γ) A g' after) : start.Solves Γ base defs g' after := by
  have plain (I : Assignment) := follows I .none (known.sorted.justified known.lawful I)
  refine ⟨known.alike.trans (plain default).alike, (plain default).justified.toLawful,
    (plain default).justified.sorted, fun d member => (known.definitions d member).mono grown,
    fun I A before => (follows I A (known.justified I A before)).justified, fun I satisfied => ?_⟩
  have before := (known.sorted.justified known.lawful I).satisfied_of_extends grown
    ((plain I).satisfied satisfied)
  rw [Store.extended_eq known.definitions grown]
  exact (known.satisfied I before).mono grown

end Goal.Solves

namespace EquationSolver

open Attempt Goal

variable {Γ : Signature} {s : Store} {g : Goal} {slot : ℕ} {origin : Entry} {d : Definition}
  {name : String} {sort : TermSort} {r : Simplifier} {context : Context} {config : EquationConfig}

/-- Eliminating a constant. -/
theorem eliminate_ensures (posed : g.Sorted Γ s) (lawful : g.Lawful)
    (consistent : g.inconsistent = false) (there : g.entries[slot]? = some origin)
    (defines : s.Defines Γ origin.formula d.1 d.2 name sort) (sound : r.Sound s) :
    (eliminate context slot d g).Ensures r s (fun g' r' after => r'.Sound after ∧
      g.Solves Γ s [d] g' after) fun _ _ _ => True := by
  have inside := (posed origin (List.mem_of_getElem? there)).1.inside
  unfold eliminate
  rw [there, Option.getD_some]
  apply ensures_build_bind (cleared_ensures posed lawful consistent there defines)
  intro cleared middle grown known
  apply (Goal.visitAll_ensures (P := fun next g' r' now => r'.Sound now ∧
      Eliminates Γ d name sort s g (fun i => i < next ∨ i = slot) g' now)
    (fun next e g' r' now known found consistent => replaceIn_ensures lawful known.2 inside defines
      there found consistent known.1)
    (fun _ _ _ _ _ => trivial)
    ⟨sound.mono grown, known.widen fun i _ _ its => .inl (its.resolve_left (Nat.not_lt_zero i))⟩).imp
  · rintro g' r' after more ⟨last, ⟨sound, known⟩, ended⟩
    refine ⟨sound, known.alike, known.lawful, known.sorted, fun e member => ?_, known.justified,
      fun I satisfied => ?_⟩
    · obtain rfl := List.mem_singleton.mp member
      have wide := defines.sorted.mono_within known.grown (Signature.without_within Γ name sort)
      refine ⟨⟨name, ?_⟩, known.grown.lt_size defines.constant.inside, wide, ?_⟩
      · rw [Store.sortOf, known.grown.node_eq defines.constant.inside, defines.node]
      · rw [known.grown.sortOf_eq defines.sorted.inside, defines.sort_eq, Store.sortOf,
          known.grown.node_eq defines.constant.inside, defines.node]
    · have here := defines.mono inside known.grown
      show g.Satisfied ((after.define I d).reading Γ) after
      rw [Store.define_eq here.node]
      -- The constant does not occur in the goal, which may be read with any value of the constant.
      refine known.satisfied _ (here.value_assign I) fun e member => ?_
      obtain ⟨i, place⟩ := List.mem_iff_getElem?.mp member
      have absent : after.WellSorted (Γ.without name sort) e.formula := by
        refine known.done i e place ?_
        have short : i < g'.size := (List.getElem?_eq_some_iff.mp place).1
        rcases ended with refuted | all
        · exact .inr refuted
        · exact .inl (.inl (by omega))
      have bit := satisfied e member
      refine ⟨bit.sorted, bit.sort_eq, ?_⟩
      rw [absent.value_congr Assignment.assign_agreeOn_without, bit.value_eq]
  · exact fun _ _ _ _ _ => trivial

/-- Eliminating constants as long as a formula defines one. -/
theorem eliminateAll_ensures {rounds : ℕ} (posed : g.Sorted Γ s) (lawful : g.Lawful)
    (sound : r.Sound s) :
    (eliminateAll config context rounds g).Ensures r s (fun found r' after => r'.Sound after ∧
      g.Solves Γ s found.2 found.1 after) fun _ _ _ => True := by
  induction rounds generalizing g r s with
  | zero => exact ensures_pure ⟨sound, .refl posed lawful⟩
  | succ rounds later =>
    unfold eliminateAll
    split
    · exact ensures_pure ⟨sound, .refl posed lawful⟩
    · next consistent =>
      have consistent : g.inconsistent = false := by simpa using consistent
      have formulas : ∀ f ∈ g.formulas, s.WellSorted Γ f ∧ s.sortOf f = .bool := by
        intro f member
        obtain ⟨e, inside, rfl⟩ := List.mem_map.mp member
        exact posed e inside
      apply ensures_build_bind (candidate?_ensures formulas)
      intro found middle grown known
      have posed := posed.mono grown
      cases found with
      | none => exact ensures_pure ⟨sound.mono grown, (Solves.refl posed lawful).earlier grown⟩
      | some chosen =>
        obtain ⟨place, var, body⟩ := chosen
        obtain ⟨k, f, slot, there, name, sort, defines⟩ := known place _ rfl
        rw [Goal.formulas, List.getElem?_map, Option.map_eq_some_iff] at there
        obtain ⟨origin, there, rfl⟩ := there
        obtain rfl : place = k := by omega
        have inside := (posed origin (List.mem_of_getElem? there)).1.inside
        apply ensures_bind (Promise.check_keeps trivial)
        rintro _ _ _ _ ⟨rfl, rfl⟩
        apply ensures_bind (Rewriting.simplifyIn_ensures (sound.mono grown))
        rintro body' r' last more ⟨sound, replaces⟩
        have defines := (defines.mono inside more).replace (replaces _ defines.sorted)
        apply ensures_bind (eliminate_ensures (d := (var, body')) (posed.mono more) lawful
          consistent there defines sound)
        rintro g' r' now further ⟨sound, first⟩
        apply ensures_bind (later first.sorted first.lawful sound)
        rintro ⟨g'', rest⟩ r' final again ⟨sound, solves⟩
        exact ensures_pure ⟨sound, (first.cons again solves).earlier (grown.trans more)⟩

/-- Eliminating all constants that formulas define. -/
theorem solve_ensures (posed : g.Sorted Γ s) (lawful : g.Lawful) (sound : r.Sound s) :
    (solve config context g).Ensures r s (fun found _ after => g.Solves Γ s found.2 found.1 after)
      fun _ _ _ => True := by
  unfold solve
  apply ensures_read_bind
  apply ensures_bind (eliminateAll_ensures posed lawful sound)
  rintro ⟨g', defs⟩ r' middle grown ⟨_, solves⟩
  have reduced : g'.elimRedundancies.Ensures middle fun g'' after =>
      ∀ (I : Assignment) (A : Assumptions), g'.Justified (I.reading Γ) A middle →
        g'.Follows (I.reading Γ) A g'' after :=
    Terms.ensures_forall fun I => Terms.ensures_forall fun A => Terms.ensures_forall fun known =>
      elimRedundancies_follows known
  apply ensures_build_bind reduced
  intro g'' after more follows
  exact ensures_pure (solves.follows more follows)

/-- The result of an elimination: constants of the goal are eliminated. -/
theorem run_ensures {solver : EquationSolver} (posed : g.Sorted Γ s) (lawful : g.Lawful) :
    (solver.run context g).Ensures s fun found after => ∀ r, found.1 = .ok r →
      ∃ g' defs, r = result g' defs ∧ g.Solves Γ s defs g' after := by
  obtain ⟨config, simplifier, eliminated⟩ := solver
  have solved : (solve config context g).Ensures simplifier.reset s _ _ :=
    solve_ensures posed lawful (Simplifier.sound_of_empty rfl)
  unfold Attempt.Ensures at solved
  apply Terms.ensures_bind solved
  rintro ⟨outcome, simplifier'⟩ after _ known
  cases outcome with
  | ok found =>
    apply Terms.ensures_pure
    rintro r ⟨⟩
    exact ⟨found.1, found.2, rfl, known⟩
  | error e => exact Terms.ensures_pure (by simp)

end EquationSolver
end Stratagem
