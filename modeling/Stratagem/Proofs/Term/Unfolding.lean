import Stratagem.Proofs.Term.Building
import Stratagem.Proofs.Term.Reading

/-!
# Terms without sharing

The tree of a term is the term with all its arguments written out; the irrational literals of a
tree are told apart by the polynomial and the position of the root alone. Trees do not depend on
the store, so an interpretation of formulas is a property of trees: it gives a truth value to every
tree, in agreement with the connectives, and leaves open what everything else means. Every
interpretation is a reading of the terms of a store as truth values.
-/
namespace Stratagem

open Store (Extends)

/-- A term with its arguments written out. -/
inductive Tree where
  | node (op : Op) (args : List Tree) (sort : TermSort)

/-- An operator up to the interval of an irrational literal, which does not change its number. -/
def Op.key : Op → Op
  | algebraic a => algebraic { a with interval := .point 0 }
  | op => op

namespace Store

variable {s after : Store} {t : TermId}

/-- The tree of a term. -/
def tree (s : Store) (t : TermId) : Tree :=
  .node (s.op t).key ((s.args t).attach.map fun a => s.tree a.1) (s.sortOf t)
termination_by t
decreasing_by exact lt_of_mem_args a.2

/-- The tree of a term has the trees of its arguments below its head. -/
theorem tree_eq (s : Store) (t : TermId) :
    s.tree t = .node (s.op t).key ((s.args t).map s.tree) (s.sortOf t) := by
  rw [tree, List.attach_map_val (f := s.tree)]

/-- The tree of a term whose head and arguments are known. -/
theorem tree_of_view {op : Op} {args : List TermId} (view : s.view t = (op, args)) :
    s.tree t = .node op.key (args.map s.tree) (s.sortOf t) := by
  obtain ⟨head, arguments⟩ := Prod.mk.inj view
  rw [tree_eq, Store.op, Store.args, head, arguments]

/-- Terms keep their trees when the store grows. -/
theorem Extends.tree_eq (grown : s.Extends after) (inside : t < s.size) :
    after.tree t = s.tree t := by
  induction t using Nat.strongRecOn with
  | ind t smaller =>
    rw [Store.tree_eq, Store.tree_eq, grown.op_eq inside, grown.args_eq inside,
      grown.sortOf_eq inside]
    congr 1
    refine List.map_congr_left fun a member => ?_
    have before := lt_of_mem_args member
    exact smaller a before (before.trans inside)

end Store

/-- A truth value for every tree, in agreement with the connectives. -/
structure Interpretation where
  /-- A tree is true. -/
  holds : Tree → Prop
  /-- The truth of the literals. -/
  bool : ∀ {b : Bool} {args : List Tree} {sort : TermSort},
    holds (.node (.bool b) args sort) ↔ b = true
  /-- The truth of a negation. -/
  not : ∀ {a : Tree} {sort : TermSort}, holds (.node .not [a] sort) ↔ ¬holds a
  /-- The truth of a conjunction. -/
  and : ∀ {args : List Tree} {sort : TermSort},
    holds (.node .and args sort) ↔ ∀ a ∈ args, holds a
  /-- The truth of a disjunction. -/
  or : ∀ {args : List Tree} {sort : TermSort},
    holds (.node .or args sort) ↔ ∃ a ∈ args, holds a
  /-- The truth of a difference. -/
  xor : ∀ {a b : Tree} {sort : TermSort},
    holds (.node .xor [a, b] sort) ↔ ¬(holds a ↔ holds b)
  /-- The truth of a case distinction. -/
  ite : ∀ {c a b : Tree} {sort : TermSort},
    holds (.node .ite [c, a, b] sort) ↔ (holds c → holds a) ∧ (¬holds c → holds b)

/-- The truth of a tree, given the truth of the trees whose heads are no connectives. -/
def Tree.truth (atom : Tree → Prop) : Tree → Prop
  | node (.bool b) _ _ => b = true
  | node .not [a] _ => ¬a.truth atom
  | node .and args _ => ∀ a : { a // a ∈ args }, a.1.truth atom
  | node .or args _ => ∃ a : { a // a ∈ args }, a.1.truth atom
  | node .xor [a, b] _ => ¬(a.truth atom ↔ b.truth atom)
  | node .ite [c, a, b] _ => (c.truth atom → a.truth atom) ∧ (¬c.truth atom → b.truth atom)
  | other => atom other
decreasing_by
  all_goals
    first
    | have smaller := List.sizeOf_lt_of_mem a.2
      simp only [node.sizeOf_spec]
      omega
    | simp only [node.sizeOf_spec, List.cons.sizeOf_spec]
      omega

/-- The interpretation that any truth values of atoms give rise to. -/
def Interpretation.ofAtoms (atom : Tree → Prop) : Interpretation where
  holds := Tree.truth atom
  bool := by simp only [Tree.truth, implies_true]
  not := by simp only [Tree.truth, implies_true]
  and := by simp only [Tree.truth, Subtype.forall, implies_true]
  or := by simp only [Tree.truth, Subtype.exists, exists_prop, implies_true]
  xor := by simp only [Tree.truth, implies_true]
  ite := by simp only [Tree.truth, implies_true]

namespace Interpretation

open Terms

variable {I : Interpretation} {s after : Store} {t a b c : TermId} {p q r : Bool}
  {terms : List TermId} {ps : List Bool}

/-- All terms of a list are true. -/
def HoldAll (I : Interpretation) (s : Store) (terms : List TermId) : Prop :=
  ∀ t ∈ terms, I.holds (s.tree t)

/-- Terms of the store are as true when the store grows. -/
theorem holdAll_iff (I : Interpretation) (grown : s.Extends after)
    (inside : ∀ t ∈ terms, t < s.size) : I.HoldAll after terms ↔ I.HoldAll s terms :=
  forall₂_congr fun t member => by rw [grown.tree_eq (inside t member)]

/-- A term of the store has a truth value. -/
def Bit (I : Interpretation) (s : Store) (t : TermId) (p : Bool) : Prop :=
  t < s.size ∧ (I.holds (s.tree t) ↔ p = true)

/-- Every term of the store has a truth value. -/
theorem exists_bit (I : Interpretation) (inside : t < s.size) : ∃ p, I.Bit s t p := by
  classical
  exact ⟨decide (I.holds (s.tree t)), inside, decide_eq_true_iff.symm⟩

/-- Truth values do not change when the store grows. -/
theorem Bit.mono (known : I.Bit s t p) (grown : s.Extends after) : I.Bit after t p := by
  refine ⟨grown.lt_size known.1, ?_⟩
  rw [grown.tree_eq known.1]
  exact known.2

/-- The truth values of members, gathered by a junction. -/
theorem holds_members (known : List.Forall₂ (I.Bit s) terms ps) :
    ((∀ a ∈ terms.map s.tree, I.holds a) ↔ ps.all id = true) ∧
      ((∃ a ∈ terms.map s.tree, I.holds a) ↔ ps.any id = true) := by
  induction known with
  | nil => simp
  | cons first _ rest =>
    rw [List.map_cons, List.forall_mem_cons, List.exists_mem_cons_iff, rest.1, rest.2, first.2]
    simp

/-- The truth values of the arguments of a term. -/
theorem exists_bits (I : Interpretation) (inside : t < s.size) :
    ∃ ps, List.Forall₂ (I.Bit s) (s.args t) ps := by
  have each : ∀ a ∈ s.args t, ∃ p, I.Bit s a p := fun a member =>
    I.exists_bit ((Store.lt_of_mem_args member).trans inside)
  generalize s.args t = args at each
  induction args with
  | nil => exact ⟨[], .nil⟩
  | cons a rest tail =>
    obtain ⟨first, others⟩ := List.forall_mem_cons.mp each
    obtain ⟨p, here⟩ := first
    obtain ⟨ps, there⟩ := tail others
    exact ⟨p :: ps, .cons here there⟩

/-- An application built from terms with truth values is as true as its tree. -/
theorem mkApp_bit {op : Op} (plain : op.key = op) (inside : ∀ a ∈ terms, a < s.size)
    (value : ∀ sort, I.holds (.node op (terms.map s.tree) sort) ↔ p = true) :
    (mkApp op terms).Ensures s fun t after => I.Bit after t p := by
  refine (mkApp_node inside).imp fun t after grown found => ⟨found.1, ?_⟩
  rw [Store.tree_eq, Store.op, Store.args, Store.sortOf, found.2, plain]
  have same : terms.map after.tree = terms.map s.tree :=
    List.map_congr_left fun a member => grown.tree_eq (inside a member)
  rw [same]
  exact value _

/-- A junction of terms with truth values. -/
theorem mkApp_junction {op : Op} (plain : op.key = op) (known : List.Forall₂ (I.Bit s) terms ps)
    (value : ∀ sort, I.holds (.node op (terms.map s.tree) sort) ↔ p = true) :
    (mkApp op terms).Ensures s fun t after => I.Bit after t p := by
  refine mkApp_bit plain (fun a member => ?_) value
  obtain ⟨_, _, bit⟩ := exists_of_forall₂ known member
  exact bit.1

/-- An interpretation as a reading of the terms of a store. -/
def reading (I : Interpretation) : Reading where
  Bit := I.Bit
  mono := Bit.mono
  unique left right := Bool.eq_iff_iff.mpr (left.2.symm.trans right.2)
  ofBool s p := by
    have literal : (ofBool p) < s.size ∧ s.node (ofBool p) = ⟨.bool p, [], .bool⟩ := by
      cases p with
      | true => exact s.node_trueId
      | false => exact s.node_falseId
    refine ⟨literal.1, ?_⟩
    rw [Store.tree_eq, Store.op, literal.2]
    exact I.bool
  of_bool known view := by
    rw [Bool.eq_iff_iff, ← known.2, Store.tree_of_view view]
    exact I.bool
  not {s a p} known := by
    refine mkApp_bit rfl (by simpa using known.1) fun sort => ?_
    rw [List.map_singleton, I.not, known.2, Bool.not_eq_true', Bool.not_eq_true]
  of_not {s t a p} known view := by
    have member : a ∈ s.args t := by
      rw [show s.args t = [a] from congrArg Prod.snd view]
      exact List.mem_singleton_self a
    have tree := Store.tree_of_view view
    have value := known.2
    rw [tree, List.map_singleton, show Op.not.key = .not from rfl, I.not] at value
    refine ⟨(Store.lt_of_mem_args member).trans known.1, ?_⟩
    rw [Bool.not_eq_true', ← Bool.not_eq_true, ← value, not_not]
  and {s terms ps} known := by
    match known with
    | .nil => exact ⟨s.node_trueId.1, by
        rw [mkAnd, run_pure, Store.tree_eq, Store.op, s.node_trueId.2]; exact I.bool⟩
    | .cons first .nil => exact ensures_pure (by simpa using first)
    | .cons first (.cons second rest) =>
      have all : List.Forall₂ (I.Bit s) _ _ := .cons first (.cons second rest)
      exact mkApp_junction rfl all fun sort => I.and.trans (holds_members all).1
  or {s terms ps} known := by
    match known with
    | .nil => exact ⟨s.node_falseId.1, by
        rw [mkOr, run_pure, Store.tree_eq, Store.op, s.node_falseId.2]; exact I.bool⟩
    | .cons first .nil => exact ensures_pure (by simpa using first)
    | .cons first (.cons second rest) =>
      have all : List.Forall₂ (I.Bit s) _ _ := .cons first (.cons second rest)
      exact mkApp_junction rfl all fun sort => I.or.trans (holds_members all).2
  of_and {s t terms p} known view := by
    obtain ⟨ps, bits⟩ := I.exists_bits known.1
    rw [show s.args t = terms from congrArg Prod.snd view] at bits
    refine ⟨ps, bits, ?_⟩
    rw [Bool.eq_iff_iff, ← known.2, ← (holds_members bits).1, Store.tree_of_view view]
    exact I.and
  of_or {s t terms p} known view := by
    obtain ⟨ps, bits⟩ := I.exists_bits known.1
    rw [show s.args t = terms from congrArg Prod.snd view] at bits
    refine ⟨ps, bits, ?_⟩
    rw [Bool.eq_iff_iff, ← known.2, ← (holds_members bits).2, Store.tree_of_view view]
    exact I.or
  xor {s a b p q} left right := by
    refine mkApp_bit rfl (by simp [left.1, right.1]) fun sort => ?_
    rw [List.map_cons, List.map_singleton, I.xor, left.2, right.2]
    cases p <;> cases q <;> simp
  ite {s c a b r p q} condition yes no := by
    refine mkApp_bit rfl (by simp [condition.1, yes.1, no.1]) fun sort => ?_
    rw [List.map_cons, List.map_cons, List.map_singleton, I.ite, condition.2, yes.2, no.2]
    cases r <;> simp

/-- A term of the store is true in the reading if its tree is true. -/
theorem reading_bit_true (inside : t < s.size) :
    I.reading.Bit s t true ↔ I.holds (s.tree t) :=
  ⟨fun bit => bit.2.mpr rfl, fun holds => ⟨inside, iff_of_true holds rfl⟩⟩

end Interpretation

end Stratagem
