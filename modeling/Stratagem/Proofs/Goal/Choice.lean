import Mathlib.Algebra.Order.BigOperators.Group.List
import Stratagem.Proofs.Goal.Operation

/-!
# Choices

How often a case split can find a clause: each disjunction that taking formulas apart can bring to
light is one choice. Taking a formula apart shares its choices out among its conjuncts, and a
disjunction has one choice more than its members have together, so the choices of a goal bound the
number of case splits on the way to a goal without clauses.
-/
namespace Stratagem

open Store (Extends)

namespace Tree

/-- The disjunctions that taking a formula and their members apart can bring to light, below a
negation or not. -/
def choices : Bool → Tree → ℕ
  | false, node .or args _ => 1 + (args.attach.map fun a => a.1.choices false).sum
  | false, node .and args _ => (args.attach.map fun a => a.1.choices false).sum
  | false, node .not [a] _ => a.choices true
  | true, node .or args _ => (args.attach.map fun a => a.1.choices true).sum
  | _, _ => 0
decreasing_by
  all_goals
    first
    | have smaller := List.sizeOf_lt_of_mem a.2
      simp only [node.sizeOf_spec]
      omega
    | simp only [node.sizeOf_spec, List.cons.sizeOf_spec]
      omega

/-- A disjunction has one choice more than its members. -/
theorem choices_or (args : List Tree) (sort : TermSort) :
    choices false (node .or args sort) = 1 + (args.map (choices false)).sum := by
  rw [choices, List.attach_map_val (f := choices false)]

/-- A conjunction has the choices of its members. -/
theorem choices_and (args : List Tree) (sort : TermSort) :
    choices false (node .and args sort) = (args.map (choices false)).sum := by
  rw [choices, List.attach_map_val (f := choices false)]

/-- A negated formula has its choices below a negation. -/
theorem choices_not (a : Tree) (sort : TermSort) :
    choices false (node .not [a] sort) = choices true a := by
  rw [choices]

/-- A negated disjunction has the choices of its negated members. -/
theorem choices_nor (args : List Tree) (sort : TermSort) :
    choices true (node .or args sort) = (args.map (choices true)).sum := by
  rw [choices, List.attach_map_val (f := choices true)]

/-- Every disjunction in a tree has at least two members. -/
inductive Branching : Tree → Prop
  | node {op : Op} {args : List Tree} {sort : TermSort} (members : op = .or → 2 ≤ args.length)
    (each : ∀ a ∈ args, a.Branching) : (node op args sort).Branching

/-- A tree of one node has no disjunction to be a member short. -/
theorem Branching.leaf {op : Op} {sort : TermSort} (other : op ≠ .or) :
    (Tree.node op [] sort).Branching :=
  .node (fun same => absurd same other) (List.forall_mem_nil _)

end Tree

namespace Store

variable {s after : Store} {terms : List TermId} {n : ℕ} {f a : TermId}

/-- Terms of the store with a number of choices at most, and with disjunctions of two members at
least. -/
structure HasChoices (s : Store) (terms : List TermId) (n : ℕ) : Prop where
  /-- The terms are in the store. -/
  inside : ∀ t ∈ terms, t < s.size
  /-- Their disjunctions have at least two members. -/
  branching : ∀ t ∈ terms, (s.tree t).Branching
  /-- Their choices together. -/
  bounded : (terms.map fun t => (s.tree t).choices false).sum ≤ n

namespace HasChoices

/-- Terms keep their choices when the store grows. -/
theorem mono (known : s.HasChoices terms n) (grown : s.Extends after) :
    after.HasChoices terms n where
  inside t member := grown.lt_size (known.inside t member)
  branching t member := by
    rw [grown.tree_eq (known.inside t member)]
    exact known.branching t member
  bounded := by
    rw [List.map_congr_left fun t member => by rw [grown.tree_eq (known.inside t member)]]
    exact known.bounded

/-- Choices do not depend on the order of the terms. -/
theorem perm {others : List TermId} (known : s.HasChoices terms n) (same : others.Perm terms) :
    s.HasChoices others n where
  inside t member := known.inside t (same.mem_iff.mp member)
  branching t member := known.branching t (same.mem_iff.mp member)
  bounded := by
    rw [(same.map _).sum_eq]
    exact known.bounded

/-- A number of choices at most is one for every larger number. -/
theorem le {m : ℕ} (known : s.HasChoices terms n) (bound : n ≤ m) : s.HasChoices terms m :=
  ⟨known.inside, known.branching, known.bounded.trans bound⟩

/-- The other terms have the choices that the first one leaves. -/
theorem tail (known : s.HasChoices (f :: terms) n) :
    (s.tree f).choices false ≤ n ∧ s.HasChoices terms (n - (s.tree f).choices false) := by
  have bounded := known.bounded
  rw [List.map_cons, List.sum_cons] at bounded
  exact ⟨(Nat.le_add_right _ _).trans bounded,
    fun t member => known.inside t (List.mem_cons_of_mem f member),
    fun t member => known.branching t (List.mem_cons_of_mem f member),
    Nat.le_sub_of_add_le' bounded⟩

/-- Terms and others have their choices together. -/
theorem append {others : List TermId} {m : ℕ} (first : s.HasChoices terms n)
    (second : s.HasChoices others m) : s.HasChoices (terms ++ others) (n + m) := by
  refine ⟨fun t member => ?_, fun t member => ?_, ?_⟩
  · exact (List.mem_append.mp member).elim (first.inside t) (second.inside t)
  · exact (List.mem_append.mp member).elim (first.branching t) (second.branching t)
  · rw [List.map_append, List.sum_append]
    exact Nat.add_le_add first.bounded second.bounded

/-- Terms and others share their choices. -/
theorem exists_append {others : List TermId} (known : s.HasChoices (terms ++ others) n) :
    ∃ m ≤ n, s.HasChoices terms m ∧ s.HasChoices others (n - m) := by
  have bounded := known.bounded
  rw [List.map_append, List.sum_append] at bounded
  refine ⟨_, (Nat.le_add_right _ _).trans bounded, ⟨?_, ?_, le_rfl⟩,
    ⟨?_, ?_, Nat.le_sub_of_add_le' bounded⟩⟩
  · exact fun t member => known.inside t (List.mem_append_left _ member)
  · exact fun t member => known.branching t (List.mem_append_left _ member)
  · exact fun t member => known.inside t (List.mem_append_right _ member)
  · exact fun t member => known.branching t (List.mem_append_right _ member)

/-- A term may give way to others that have at most its choices. -/
theorem replace {others : List TermId} (known : s.HasChoices (f :: terms) n)
    (grown : s.Extends after) (here : after.HasChoices others ((s.tree f).choices false)) :
    after.HasChoices (others ++ terms) n := by
  obtain ⟨fits, rest⟩ := known.tail
  exact (here.append (rest.mono grown)).le (Nat.add_sub_of_le fits).le

end HasChoices

/-- The members of a term have disjunctions of two members at least if the term has. -/
theorem branching_of_mem (known : (s.tree f).Branching) (member : a ∈ s.args f) :
    (s.tree a).Branching := by
  rw [tree_eq] at known
  obtain ⟨_, each⟩ := known
  exact each _ (List.mem_map_of_mem member)

/-- The literal `false` has no choices. -/
theorem hasChoices_falseId (s : Store) (n : ℕ) : s.HasChoices [falseId] n := by
  have tree : s.tree falseId = .node (.bool false) [] .bool := by
    rw [tree_eq, op, args, sortOf, s.node_falseId.2]
    rfl
  refine ⟨by simpa using s.node_falseId.1, ?_, ?_⟩
  · simp only [List.mem_singleton, forall_eq, tree]
    exact .leaf (by simp)
  · simp [tree, Tree.choices]

/-- The members of a conjunction share its choices. -/
theorem hasChoices_of_and {members : List TermId} (inside : f < s.size)
    (branching : (s.tree f).Branching) (view : s.view f = (.and, members)) :
    s.HasChoices members ((s.tree f).choices false) := by
  obtain rfl : s.args f = members := congrArg Prod.snd view
  refine ⟨fun a member => (lt_of_mem_args member).trans inside,
    fun a member => branching_of_mem branching member, ?_⟩
  rw [tree_of_view view]
  exact (Tree.choices_and _ _).symm.le.trans' (by rw [List.map_map]; rfl)

/-- A disjunction is a choice, and each member has fewer choices. -/
theorem hasChoices_of_or {members : List TermId} (inside : f < s.size)
    (branching : (s.tree f).Branching) (view : s.view f = (.or, members)) :
    0 < (s.tree f).choices false ∧
      ∀ a ∈ members, s.HasChoices [a] ((s.tree f).choices false - 1) := by
  have total : (s.tree f).choices false =
      1 + ((members.map s.tree).map (Tree.choices false)).sum := by
    rw [tree_of_view view]
    exact Tree.choices_or ..
  refine ⟨by omega, fun a member => ?_⟩
  have argument : a ∈ s.args f := by rwa [show s.args f = members from congrArg Prod.snd view]
  have part : (s.tree a).choices false ≤ ((members.map s.tree).map (Tree.choices false)).sum :=
    List.le_sum_of_mem (List.mem_map_of_mem (List.mem_map_of_mem member))
  refine ⟨by simpa using (lt_of_mem_args argument).trans inside,
    by simpa using branching_of_mem branching argument, ?_⟩
  rw [List.map_singleton, List.sum_singleton]
  omega

/-- The negated members of a negated disjunction share its choices. -/
theorem hasChoices_of_nor {members negated : List TermId} (inside : f < s.size)
    (branching : (s.tree f).Branching) (grown : s.Extends after) (view : s.view f = (.not, [a]))
    (inner : s.view a = (.or, members))
    (built : List.Forall₂ (fun b n => n < after.size ∧ after.view n = (.not, [b])) members
      negated) : after.HasChoices negated ((s.tree f).choices false) := by
  have argument : a ∈ s.args f := by
    rw [show s.args f = [a] from congrArg Prod.snd view]
    exact List.mem_singleton_self a
  have within : ∀ b ∈ members, b < s.size ∧ (s.tree b).Branching := by
    intro b member
    have below : b ∈ s.args a := by rwa [show s.args a = members from congrArg Prod.snd inner]
    exact ⟨(lt_of_mem_args below).trans ((lt_of_mem_args argument).trans inside),
      branching_of_mem (branching_of_mem branching argument) below⟩
  have total : (s.tree f).choices false = (members.map fun b => (s.tree b).choices true).sum := by
    rw [tree_of_view view, List.map_singleton]
    refine (Tree.choices_not _ _).trans ?_
    rw [tree_of_view inner]
    exact (Tree.choices_nor _ _).trans (by rw [List.map_map]; rfl)
  have negation : ∀ b n, b < s.size → after.view n = (.not, [b]) →
      after.tree n = .node .not [s.tree b] (after.sortOf n) := by
    intro b n inside view
    rw [tree_of_view view, List.map_singleton, grown.tree_eq inside]
    rfl
  refine ⟨fun n member => ?_, fun n member => ?_, total ▸ ?_⟩
  · obtain ⟨_, _, known, _⟩ := exists_of_forall₂ built.flip member
    exact known
  · obtain ⟨b, among, _, view⟩ := exists_of_forall₂ built.flip member
    rw [negation b n (within b among).1 view]
    exact .node nofun (by simpa using (within b among).2)
  · clear total inner
    induction built with
    | nil => exact Nat.le_refl 0
    | cons first _ rest =>
      obtain ⟨here, others⟩ := List.forall_mem_cons.mp within
      rw [List.map_cons, List.map_cons, List.sum_cons, List.sum_cons,
        negation _ _ here.1 first.2, Tree.choices_not]
      exact Nat.add_le_add_left (rest others) _

end Store

namespace Goal

variable {s after : Store} {g g' : Goal} {e : Entry} {n : ℕ} {rule : ProofRule}
  {proof : Option Proof}

/-- The choices of all formulas of a goal. -/
def choices (s : Store) (g : Goal) : ℕ := (g.formulas.map fun f => (s.tree f).choices false).sum

/-- Derived parts have the conclusions as formulas. -/
theorem mapM_derive_formulas (terms : List TermId) :
    (terms.mapM (derive rule proof)).Ensures s fun parts _ => parts.map Prod.fst = terms := by
  have each : (terms.mapM (derive rule proof)).Ensures s fun parts _ =>
      List.Forall₂ (fun f (part : Part) => part.1 = f) terms parts := by
    refine Terms.ensures_mapM ?_ terms fun _ _ _ _ => derive_ensures
    exact fun _ _ _ _ _ known => known
  refine each.imp fun parts _ _ known => ?_
  rw [← List.forall₂_eq_eq_eq, List.forall₂_map_left_iff]
  exact known.flip

/-- A formula that is taken apart shares its choices out among its parts. -/
theorem split?_choices {part : Part} (inside : part.1 < s.size)
    (branching : (s.tree part.1).Branching) :
    (split? part).Ensures s fun found after => ∀ parts, found = some parts →
      after.HasChoices (parts.map Prod.fst) ((s.tree part.1).choices false) := by
  obtain ⟨f, proof⟩ := part
  have derived : ∀ {rule : ProofRule} {members : List TermId} {now : Store},
      now.HasChoices members ((s.tree f).choices false) →
      (members.mapM (derive rule proof)).Ensures now fun parts after =>
        after.HasChoices (parts.map Prod.fst) ((s.tree f).choices false) := fun shared =>
    (mapM_derive_formulas _).imp fun _ _ grown same => same ▸ shared.mono grown
  unfold split?
  apply Terms.ensures_read_bind
  dsimp only
  split
  · exact Terms.ensures_pure (by rintro parts ⟨⟩; exact ⟨nofun, nofun, Nat.zero_le _⟩)
  · next members view =>
    apply Terms.ensures_bind (derived (Store.hasChoices_of_and inside branching view))
    intro parts after _ shared
    exact Terms.ensures_pure (by rintro _ ⟨⟩; exact shared)
  · next a view =>
    split
    · exact Terms.ensures_pure (by rintro parts ⟨⟩; exact ⟨nofun, nofun, Nat.zero_le _⟩)
    · next members inner =>
      have below : ∀ b ∈ members, b < s.size := by
        intro b member
        have argument : a ∈ s.args f := by
          rw [show s.args f = [a] from congrArg Prod.snd view]
          exact List.mem_singleton_self a
        have lower : b ∈ s.args a := by rwa [show s.args a = members from congrArg Prod.snd inner]
        exact (Store.lt_of_mem_args lower).trans ((Store.lt_of_mem_args argument).trans inside)
      apply Terms.ensures_bind (negations_ensures below)
      intro negated middle grown built
      apply Terms.ensures_bind
        (derived (Store.hasChoices_of_nor inside branching grown view inner built))
      intro parts after _ shared
      exact Terms.ensures_pure (by rintro _ ⟨⟩; exact shared)
    · exact Terms.ensures_pure nofun
  · exact Terms.ensures_pure nofun

/-- What holds of the parts that are still to be taken apart and of those found, and is kept when
one of the former is found or gives way to its own parts, holds of all conjuncts in the end. -/
theorem conjunctsOnto_induct {P : Store → List Part → List Part → Prop}
    (found : ∀ {s part pending conjuncts}, P s (part :: pending) conjuncts →
      P s pending (part :: conjuncts))
    (taken : ∀ {s part pending conjuncts}, P s (part :: pending) conjuncts →
      (split? part).Ensures s fun outcome after =>
        (outcome = none → P after (part :: pending) conjuncts) ∧
          ∀ parts, outcome = some parts → P after (parts ++ pending) conjuncts)
    (depth : ℕ) {part : Part} {pending conjuncts : List Part} {s : Store}
    (start : P s (part :: pending) conjuncts) :
    (conjunctsOnto depth conjuncts part).Ensures s fun parts after => P after pending parts := by
  induction depth generalizing part pending conjuncts s with
  | zero => exact Terms.ensures_pure (found start)
  | succ depth deeper =>
    unfold conjunctsOnto
    apply Terms.ensures_bind (taken start)
    rintro (_ | parts) middle grown ⟨whole, apart⟩
    · exact Terms.ensures_pure (found (whole rfl))
    · -- The parts are taken apart one after the other.
      replace start := apart parts rfl
      clear whole apart grown
      show (parts.foldlM (conjunctsOnto depth) conjuncts).Ensures middle _
      induction parts generalizing conjuncts middle with
      | nil => exact Terms.ensures_pure start
      | cons first rest tail =>
        rw [List.foldlM_cons]
        exact Terms.ensures_bind (deeper start) fun _ _ _ start => tail _ start

/-- The conjuncts of a formula share its choices. -/
theorem flatten_choices {f : TermId} (inside : f < s.size) (branching : (s.tree f).Branching) :
    (flatten f proof).Ensures s fun parts after =>
      after.HasChoices (parts.map Prod.fst) ((s.tree f).choices false) := by
  have shared : s.HasChoices ([f] ++ []) ((s.tree f).choices false) :=
    ⟨by simpa using inside, by simpa using branching, by simp⟩
  have conjuncts : (conjunctsOnto (f + 1) [] (f, proof)).Ensures s fun parts after =>
      after.HasChoices (([] : List Part).map Prod.fst ++ parts.map Prod.fst)
        ((s.tree f).choices false) := by
    refine conjunctsOnto_induct (P := fun s pending conjuncts =>
      s.HasChoices (pending.map Prod.fst ++ conjuncts.map Prod.fst) _) ?_ ?_ (f + 1) shared
    · exact fun known => known.perm List.perm_middle
    · intro s part pending conjuncts known
      have inside := known.inside part.1 (List.mem_cons_self ..)
      apply (split?_choices inside (known.branching part.1 (List.mem_cons_self ..))).imp
      refine fun outcome after grown parts => ⟨fun _ => known.mono grown, fun found same => ?_⟩
      rw [List.map_append, List.append_assoc]
      exact known.replace grown (parts found same)
  refine Terms.ensures_bind conjuncts fun parts after _ known => Terms.ensures_pure ?_
  exact known.perm (by rw [List.map_reverse]; exact List.reverse_perm _)

/-- Asserting a formula adds its choices at most. -/
theorem assertEntry_choices (known : s.HasChoices (e.formula :: g.formulas) n) :
    (g.assertEntry e).Ensures s fun g' after => after.HasChoices g'.formulas n := by
  have inside := known.inside _ (List.mem_cons_self ..)
  have branching := known.branching _ (List.mem_cons_self ..)
  apply (assertEntry_ensures (flatten_choices inside branching)).imp
  rintro g' after grown (⟨_, rfl⟩ | ⟨_, parts, shared, ⟨_, _, _, rfl⟩ | ⟨_, rfl⟩⟩)
  · exact (known.tail.2.mono grown).le (Nat.sub_le ..)
  · exact after.hasChoices_falseId n
  · have formulas : (entriesOf parts (g.keptDeps e.deps)).map Entry.formula =
        parts.map Prod.fst := by simp [entriesOf]
    rw [Goal.formulas, List.map_append, formulas]
    exact (known.replace grown shared).perm List.perm_append_comm

end Goal

end Stratagem
