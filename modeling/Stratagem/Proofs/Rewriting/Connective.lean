import Stratagem.Proofs.Term.Semantics
import Stratagem.Rewriting.Connective

/-!
# Connectives keep the meaning of formulas

The rules for negation, conjunction, disjunction, implication, exclusive or, case distinction,
equality and pairwise difference answer with terms of the same sort and value, in every logic. That
two different literals are unequal is the only thing they rely on beyond the connectives; it is so
for the literals of well-sorted terms.
-/
namespace Stratagem

open Terms Rule

namespace Connective

variable {s : Store} {a : TermId}

section Gathering

variable {head : Op} {unit : TermId} {flat : Bool} {P : TermId → Prop}

/-- What holds of a term and, with it, of the members of the same head below it holds of every
member that is gathered from it. -/
theorem gather_members (down : ∀ a, s.op a = head → P a → ∀ b ∈ s.args a, P b) :
    ∀ (depth : ℕ) (walk : Walk) (a : TermId), P a → (∀ m ∈ walk.out, P m) →
      ∀ m ∈ (gather s head unit flat depth walk a).out, P m
  | 0, _, _, _, before => before
  | depth + 1, walk, a, start, before => by
    unfold gather
    split
    · exact before
    · dsimp only
      split
      · next nested =>
        have below := down a (by simp_all) start
        exact List.foldlRecOn (motive := fun walk : Walk => ∀ m ∈ walk.out, P m) _ _ before
          fun walk before b member => gather_members down depth walk b (below b member) before
      · intro m member
        obtain old | rfl := Array.mem_push.mp member
        · exact before m old
        · exact start

/-- A property of a term follows from that of all members gathered so far. -/
def Covered (P : TermId → Prop) (walk : Walk) (a : TermId) : Prop :=
  (∀ m ∈ walk.out, P m) → P a

/-- Members are only added, every term that is newly entered is covered by them, and so is a given
term. -/
structure Covers (P : TermId → Prop) (before after : Walk) (a : TermId) : Prop where
  /-- Members are only added. -/
  more : ∀ m ∈ before.out, m ∈ after.out
  /-- Terms newly entered are covered. -/
  entered : ∀ m ∈ after.seen, m ∈ before.seen ∨ Covered P after m
  /-- The given term is covered. -/
  covered : Covered P after a

/-- What is covered stays covered when members are added. -/
theorem Covered.mono {before after : Walk} (known : Covered P before a)
    (more : ∀ m ∈ before.out, m ∈ after.out) : Covered P after a :=
  fun all => known fun m member => all m (more m member)

/-- Gathering from several terms covers each of them, if gathering from one does. -/
theorem covers_foldl {step : Walk → TermId → Walk} {bound : TermId}
    (each : ∀ walk a, a < bound → (∀ m ∈ walk.seen, m ≤ a → Covered P walk m) →
      Covers P walk (step walk a) a) :
    ∀ (args : List TermId) (walk : Walk), (∀ a ∈ args, a < bound) →
      (∀ m ∈ walk.seen, m < bound → Covered P walk m) →
      (∀ m ∈ walk.out, m ∈ (args.foldl step walk).out) ∧
      (∀ m ∈ (args.foldl step walk).seen,
        m ∈ walk.seen ∨ Covered P (args.foldl step walk) m) ∧
      ∀ a ∈ args, Covered P (args.foldl step walk) a
  | [], walk, _, _ => ⟨fun _ => id, fun _ => .inl, nofun⟩
  | first :: rest, walk, inside, known => by
    have small := inside first (by simp)
    have now := each walk first small fun m seen le => known m seen (le.trans_lt small)
    have later : ∀ m ∈ (step walk first).seen, m < bound → Covered P (step walk first) m := by
      intro m seen lt
      obtain old | new := now.entered m seen
      · exact (known m old lt).mono now.more
      · exact new
    obtain ⟨more, entered, covered⟩ := covers_foldl each rest (step walk first)
      (fun a member => inside a (by simp [member])) later
    rw [List.foldl_cons]
    refine ⟨fun m member => more m (now.more m member), fun m seen => ?_, ?_⟩
    · obtain old | new := entered m seen
      · obtain older | fresh := now.entered m old
        · exact .inl older
        · exact .inr (fresh.mono more)
      · exact .inr new
    · intro a member
      obtain rfl | later := List.mem_cons.mp member
      · exact now.covered.mono more
      · exact covered a later

/-- A term is covered by the members gathered from it: what holds of the neutral element, and of a
term if it holds of the members of the same head below it, holds of the term if it holds of all
members. The terms entered before must be covered, except those that stand above the term. -/
theorem gather_covers (neutral : P unit) (up : ∀ a, s.op a = head → (∀ b ∈ s.args a, P b) → P a) :
    ∀ (depth : ℕ) (walk : Walk) (a : TermId), a < depth →
      (∀ m ∈ walk.seen, m ≤ a → Covered P walk m) →
      Covers P walk (gather s head unit flat depth walk a) a
  | depth + 1, walk, a, small, known => by
    unfold gather
    split
    · next skipped =>
      refine ⟨fun _ => id, fun _ => .inl, ?_⟩
      obtain rfl | seen := by simpa using skipped
      · exact fun _ => neutral
      · exact known a seen le_rfl
    · dsimp only
      split
      · next nested =>
        have below : ∀ b ∈ s.args a, b < a := fun b => Store.lt_of_mem_args
        -- The term itself is entered but not yet covered; its arguments stand below it.
        have each : ∀ walk b, b < a → (∀ m ∈ walk.seen, m ≤ b → Covered P walk m) →
            Covers P walk (gather s head unit flat depth walk b) b := fun walk b lt =>
          gather_covers neutral up depth walk b (lt.trans_le (Nat.le_of_lt_succ small))
        have start : ∀ m ∈ walk.seen.insert a, m < a →
            Covered P { walk with seen := walk.seen.insert a } m := by
          intro m seen lt
          obtain same | old := Std.HashSet.mem_insert.mp seen
          · exact absurd lt (by simp_all)
          · exact known m old lt.le
        obtain ⟨more, entered, covered⟩ :=
          covers_foldl each (s.args a) { walk with seen := walk.seen.insert a } below start
        have self := fun all => up a (by simp_all) fun b member => covered b member all
        refine ⟨more, fun m seen => ?_, self⟩
        obtain old | new := entered m seen
        · obtain same | older := Std.HashSet.mem_insert.mp old
          · obtain rfl : a = m := by simpa using same
            exact .inr self
          · exact .inl older
        · exact .inr new
      · refine ⟨fun m member => Array.mem_push.mpr (.inl member), fun m seen => ?_, ?_⟩
        · obtain same | old := Std.HashSet.mem_insert.mp seen
          · obtain rfl : a = m := by simpa using same
            exact .inr fun all => all a (Array.mem_push.mpr (.inr rfl))
          · exact .inl old
        · exact fun all => all a (Array.mem_push.mpr (.inr rfl))

end Gathering

/-- The head of conjunctions or of disjunctions. -/
def junctionHead (isAnd : Bool) : Op := if isAnd then .and else .or

/-- The gathered members of formulas. -/
def members (s : Store) (isAnd flat : Bool) (args : List TermId) : List TermId :=
  (args.foldl (gather s (junctionHead isAnd) (ofBool isAnd) flat s.size) {}).out.toList

/-- A list has a repeated member exactly if its members are not pairwise different. -/
theorem hasRepeat_iff : ∀ args : List TermId, hasRepeat args = true ↔ ¬args.Nodup
  | [] => by simp [hasRepeat]
  | a :: rest => by
    have tail := hasRepeat_iff rest
    simp only [hasRepeat, Bool.or_eq_true, List.contains_iff_mem, tail, List.nodup_cons]
    tauto

end Connective

namespace Logic

open Connective

variable {L : Logic} {s : Store} {config : SimplifierConfig} {a b c t : TermId} {p q : Prop}
  {v w : L.Value} {sort : TermSort} {args : List TermId}

/-- Negation keeps its meaning. -/
theorem reduceNot_answers (known : L.Formula s a p) :
    (reduceNot a).Ensures config s fun o after => L.Answers after o .bool (L.truth ¬p) := by
  refine ensures_peek ?_
  split
  · next b _ view =>
    refine answers_of_result? rfl (Formula.congr (L.literal s (!b)) ?_)
    rw [L.truth_iff (L.of_bool known view)]
    simp
  · next b view =>
    obtain ⟨_, q, inner, same⟩ := L.of_not known view
    exact answers_of_result? rfl (Formula.congr inner (by rw [L.truth_iff same, not_not]))
  · exact answers_nothing

section Junctions

variable {isAnd : Bool}

/-- The truth value of a conjunction or disjunction of formulas. -/
def Junction (L : Logic) (s : Store) (isAnd : Bool) (args : List TermId) : Prop :=
  (∀ a ∈ args, (L.Holds s a ↔ isAnd)) ↔ isAnd

/-- A conjunction holds if all members do, a disjunction if one does. -/
theorem junction_iff : L.Junction s isAnd args ↔
    if isAnd then ∀ a ∈ args, L.Holds s a else ∃ a ∈ args, L.Holds s a := by
  cases isAnd <;> simp [Junction]

/-- The members of a conjunction or disjunction are formulas, which give it its truth value. -/
theorem of_junction (isAnd : Bool) (known : L.Denotes s t sort v)
    (view : s.view t = (junctionHead isAnd, args)) :
    sort = .bool ∧ (∀ a ∈ args, L.IsFormula s a) ∧ v = L.truth (L.Junction s isAnd args) := by
  rw [junction_iff]
  cases isAnd with
  | true => exact L.of_and known view
  | false => exact L.of_or known view

/-- The members of a conjunction or disjunction are formulas. -/
theorem formulas_of_op (known : L.IsFormula s a) (head : s.op a = junctionHead isAnd) :
    ∀ b ∈ s.args a, L.IsFormula s b := by
  obtain ⟨p, formula⟩ := known
  exact (L.of_junction isAnd formula (Store.view_eq_iff.mpr ⟨head, rfl⟩)).2.1

/-- The truth value of a term whose head is that of conjunctions or of disjunctions. -/
theorem holds_of_op (known : L.IsFormula s a) (head : s.op a = junctionHead isAnd) :
    L.Holds s a ↔ L.Junction s isAnd (s.args a) := by
  obtain ⟨p, formula⟩ := known
  obtain ⟨_, _, value⟩ := L.of_junction isAnd formula (Store.view_eq_iff.mpr ⟨head, rfl⟩)
  exact formula.holds_iff.trans (L.truth_iff value)

/-- What holds of formulas, and with a conjunction or disjunction of its members, holds of the
gathered members. -/
theorem forall_members {P : TermId → Prop} (isAnd flat : Bool) (known : ∀ a ∈ args, P a)
    (down : ∀ a, s.op a = junctionHead isAnd → P a → ∀ b ∈ s.args a, P b) :
    ∀ m ∈ members s isAnd flat args, P m := by
  intro m member
  have all := List.foldlRecOn (motive := fun walk : Walk => ∀ m ∈ walk.out, P m) args
    (gather s (junctionHead isAnd) (ofBool isAnd) flat s.size) (b := {}) (by simp)
    fun walk before a member => gather_members down s.size walk a (known a member) before
  exact all m (by simpa [members] using member)

/-- The gathered members are formulas. -/
theorem formulas_of_members (isAnd flat : Bool) (formulas : ∀ a ∈ args, L.IsFormula s a) :
    ∀ m ∈ members s isAnd flat args, L.IsFormula s m :=
  forall_members isAnd flat formulas fun _ head known => formulas_of_op known head

/-- The gathered members have the truth value of the formulas they are gathered from. -/
theorem junction_members (isAnd flat : Bool) (formulas : ∀ a ∈ args, L.IsFormula s a) :
    L.Junction s isAnd (members s isAnd flat args) ↔ L.Junction s isAnd args := by
  have step : ∀ a, s.op a = junctionHead isAnd → L.IsFormula s a → ((L.Holds s a ↔ isAnd) ↔
      ∀ b ∈ s.args a, (L.Holds s b ↔ isAnd)) := by
    intro a head formula
    rw [holds_of_op formula head, Junction]
    cases isAnd <;> simp
  have neutral : L.Holds s (ofBool isAnd) ↔ isAnd := Formula.holds_iff (L.literal s isAnd)
  refine iff_congr ⟨fun all a member => ?_, fun all m member => ?_⟩ Iff.rfl
  · -- Terms that are not formulas are covered by nothing.
    obtain ⟨_, _, covered⟩ := covers_foldl (P := fun a => L.IsFormula s a → (L.Holds s a ↔ isAnd))
      (fun walk a small known => gather_covers (P := fun a => L.IsFormula s a → (L.Holds s a ↔ isAnd))
        (fun _ => neutral)
        (fun a head below formula => (step a head formula).mpr fun b member =>
          below b member (formulas_of_op formula head b member))
        s.size walk a small known) args {}
      (fun a member => L.inside (formulas a member).self) (by simp)
    exact covered a member (fun m found _ => all m (by simpa [members] using found))
      (formulas a member)
  · exact (forall_members (P := fun m => L.IsFormula s m ∧ (L.Holds s m ↔ isAnd)) isAnd flat
      (fun a member => ⟨formulas a member, all a member⟩)
      (fun a head known b member => ⟨formulas_of_op known.1 head b member,
        (step a head known.1).mp known.2 b member⟩) m member).2

/-- Formulas that contain a formula and its negation have the absorbing truth value. -/
theorem junction_of_complement (isAnd : Bool) {members : List TermId}
    (formulas : ∀ m ∈ members, L.IsFormula s m) (clash : hasComplement s members) :
    L.Junction s isAnd members ↔ (!isAnd) = true := by
  obtain ⟨m, member, found⟩ := List.any_eq_true.mp clash
  split at found
  · next b view =>
    have both : b ∈ members := by simpa using found
    obtain ⟨_, q, inner, value⟩ := L.of_not (formulas m member).self view
    have opposite : L.Holds s m ↔ ¬L.Holds s b := by
      rw [L.truth_iff value, Formula.holds_iff inner]
    have never : ¬∀ a ∈ members, (L.Holds s a ↔ isAnd) := by
      intro all
      have first := all m member
      have second := all b both
      tauto
    cases isAnd <;> simp_all [Junction]
  · cases found

/-- Formulas that contain the absorbing truth value have it. -/
theorem junction_of_absorbing {members : List TermId} (found : ofBool (!isAnd) ∈ members) :
    L.Junction s isAnd members ↔ (!isAnd) = true := by
  have absorbing : L.Holds s (ofBool (!isAnd)) ↔ (!isAnd) = true :=
    Formula.holds_iff (L.literal s (!isAnd))
  have never : ¬∀ a ∈ members, (L.Holds s a ↔ isAnd) := by
    intro all
    have := all _ found
    cases isAnd <;> simp_all
  cases isAnd <;> simp_all [Junction]

/-- Formulas as a list with their truth values. -/
theorem formulas_self (formulas : ∀ a ∈ args, L.IsFormula s a) :
    List.Forall₂ (fun t a => L.Formula s t (L.Holds s a)) args args :=
  List.forall₂_same.mpr fun a member => (formulas a member).self

/-- Conjunction and disjunction keep their meaning. -/
theorem reduceJunction_answers (formulas : ∀ a ∈ args, L.IsFormula s a) :
    (reduceJunction isAnd args).Ensures config s fun o after =>
      L.Answers after o .bool (L.truth (L.Junction s isAnd args)) := by
  have gathered := formulas_of_members isAnd config.flat formulas
  have value := junction_members isAnd config.flat formulas
  unfold reduceJunction
  refine ensures_read_bind (ensures_peek_bind ?_)
  have same : (args.foldl (gather s (if isAnd then .and else .or) (ofBool isAnd) config.flat
    s.size) {}).out.toList = members s isAnd config.flat args := rfl
  rw [← propext value, same]
  generalize members s isAnd config.flat args = members at gathered
  split
  · next found =>
    have absorbed := junction_of_absorbing (L := L) (s := s) (by simpa using found)
    exact answers_with rfl (Formula.congr (L.literal s _) absorbed.symm)
  · refine ensures_peek_bind ?_
    split
    · next clash =>
      have absorbed := junction_of_complement isAnd gathered clash
      exact answers_with rfl (Formula.congr (L.literal s _) absorbed.symm)
    · split
      · exact answers_failed
      · cases isAnd with
        | true =>
          refine answers_build (fun _ => rfl) ((L.and (formulas_self gathered)).imp
            fun t after _ built => Formula.congr built ?_)
          simp [junction_iff]
        | false =>
          refine answers_build (fun _ => rfl) ((L.or (formulas_self gathered)).imp
            fun t after _ built => Formula.congr built ?_)
          simp [junction_iff]

/-- Conjunction keeps its meaning, also when it is written as a negated disjunction. -/
theorem reduceAnd_answers (known : L.Denotes s t sort v) (view : s.view t = (.and, args)) :
    (reduceAnd t args).Ensures config s fun o after => L.Answers after o sort v := by
  obtain ⟨rfl, formulas, rfl⟩ := L.of_junction true known view
  unfold reduceAnd
  refine ensures_bind (reduceJunction_answers formulas) fun outcome after grown result =>
    ensures_read_bind ?_
  split
  · exact ensures_pure result
  · refine ensures_peek_bind ?_
    -- Whether or not the conjunction was changed, what is looked at has its meaning.
    have seen : L.Formula after (outcome.result?.getD t) (L.Junction s true args) := by
      cases found : outcome.result? with
      | none => exact L.mono known grown
      | some r => exact result r found
    split
    · next members view =>
      obtain ⟨_, formulas, value⟩ := L.of_junction true seen view
      have negate : ∀ a ∈ members, ∀ now, after.Extends now →
          (liftM (mkNot a) : Rule TermId).Ensures config now fun b later =>
            L.Formula later b ¬L.Holds after a := fun a member now more =>
        ensures_lift (L.not (L.mono (formulas a member).self more))
      have kept : ∀ a b before now, before.Extends now → L.Formula before b (¬L.Holds after a) →
          L.Formula now b ¬L.Holds after a := fun _ _ _ _ more known => L.mono known more
      refine ensures_bind (ensures_mapM kept members negate) fun negated middle _ each => ?_
      refine ensures_bind (ensures_lift (L.or each.flip)) fun clause now _ built => ?_
      refine answers_build (fun _ => rfl) ((L.not built).imp fun r _ _ final => ?_)
      refine Formula.congr final ?_
      rw [L.truth_iff value, junction_iff]
      simp
    · exact ensures_pure result

/-- Disjunction keeps its meaning. -/
theorem reduceOr_answers (known : L.Denotes s t sort v) (view : s.view t = (.or, args)) :
    (reduceJunction false args).Ensures config s fun o after => L.Answers after o sort v := by
  obtain ⟨rfl, formulas, rfl⟩ := L.of_junction false known view
  exact reduceJunction_answers formulas

end Junctions

section Cases

open Classical in
/-- Case distinction between formulas keeps its meaning. -/
theorem reduceBoolIte_answers {r : Prop} (condition : L.Formula s c r) (yes : L.Formula s a p)
    (no : L.Formula s b q) :
    (reduceBoolIte c a b).Ensures config s fun o after =>
      L.Answers after o .bool (L.truth (if r then p else q)) := by
  unfold reduceBoolIte
  split
  · next same =>
    obtain ⟨rfl, rfl⟩ := same
    have truth := yes.iff (L.formula_trueId s)
    have falsehood := no.iff (L.formula_falseId s)
    exact answers_with rfl (condition.congr (by simp [truth, falsehood]))
  split
  · next same =>
    obtain ⟨rfl, rfl⟩ := same
    have falsehood := yes.iff (L.formula_falseId s)
    have truth := no.iff (L.formula_trueId s)
    refine answers_build (fun _ => rfl) ((L.not condition).imp fun _ _ _ built => ?_)
    exact Formula.congr built (by simp [truth, falsehood])
  split
  · next same =>
    subst same
    have truth := yes.iff (L.formula_trueId s)
    refine answers_build (fun _ => rfl) ((mkOr_pair condition no).imp fun _ _ _ built => ?_)
    exact built.congr (by simp [truth]; tauto)
  split
  · next same =>
    subst same
    have falsehood := no.iff (L.formula_falseId s)
    refine answers_build (fun _ => rfl) ((mkAnd_pair condition yes).imp fun _ _ _ built => ?_)
    exact built.congr (by simp [falsehood])
  split
  · next same =>
    subst same
    have falsehood := yes.iff (L.formula_falseId s)
    refine ensures_bind (ensures_lift (L.not condition)) fun n middle grown negated => ?_
    refine answers_build (fun _ => rfl) ((mkAnd_pair negated (L.mono no grown)).imp
      fun _ _ _ built => ?_)
    exact built.congr (by simp [falsehood])
  split
  · next same =>
    subst same
    have truth := no.iff (L.formula_trueId s)
    refine ensures_bind (ensures_lift (L.not condition)) fun n middle grown negated => ?_
    refine answers_build (fun _ => rfl) ((mkOr_pair negated (L.mono yes grown)).imp
      fun _ _ _ built => ?_)
    exact built.congr (by simp [truth]; tauto)
  · exact answers_failed

open Classical in
/-- Case distinction keeps its meaning. -/
theorem reduceIte_answers (condition : L.Formula s c p) (yes : L.Denotes s a sort v)
    (no : L.Denotes s b sort w) :
    (Connective.reduceIte c a b).Ensures config s fun o after =>
      L.Answers after o sort (if p then v else w) := by
  unfold Connective.reduceIte
  split
  · next same =>
    subst same
    have truth : p := (condition.iff (L.formula_trueId s)).mpr trivial
    exact answers_with rfl (by rw [if_pos truth]; exact yes)
  split
  · next same =>
    subst same
    have falsehood : ¬p := (condition.iff (L.formula_falseId s)).mp
    exact answers_with rfl (by rw [if_neg falsehood]; exact no)
  split
  · next same =>
    subst same
    obtain rfl := L.unique yes no
    exact answers_with rfl (by rwa [ite_self])
  refine ensures_peek_bind ?_
  split
  · next d view =>
    obtain ⟨_, q, inner, opposite⟩ := L.of_not condition view
    have opposite := L.truth_iff opposite
    refine answers_build (fun _ => rfl) ((L.ite inner no yes).imp fun _ _ _ built => ?_)
    by_cases known : q <;> simp_all
  · refine ensures_peek_bind ?_
    split
    · next bool =>
      obtain rfl : sort = .bool := by rw [← L.sort_eq yes]; simpa [Store.isBool] using bool
      obtain ⟨p', rfl⟩ := L.exists_truth yes
      obtain ⟨q', rfl⟩ := L.exists_truth no
      rw [← apply_ite L.truth]
      exact reduceBoolIte_answers condition yes no
    · exact answers_failed

end Cases

section Equality

/-- An equation of two formulas, one of which is a truth value or the negation of the other, keeps
its meaning. -/
theorem reduceIff_answers (left : L.Formula s a p) (right : L.Formula s b q) :
    (reduceIff a b).Ensures config s fun found after =>
      ∀ o ∈ found, L.Answers after o .bool (L.truth (p ↔ q)) := by
  unfold reduceIff
  split
  · next same =>
    subst same
    have truth := right.iff (L.formula_trueId s)
    refine ensures_pure ?_
    rintro _ ⟨⟩
    exact answers_of_result? rfl (left.congr (by simp [truth]))
  split
  · next same =>
    subst same
    have falsehood := right.iff (L.formula_falseId s)
    refine ensures_bind (ensures_lift (L.not left)) fun _ _ _ built => ensures_pure ?_
    rintro _ ⟨⟩
    exact answers_of_result? rfl (Formula.congr built (by simp [falsehood]))
  refine ensures_peek_bind ?_
  split
  · next c view =>
    obtain ⟨_, r, inner, opposite⟩ := L.of_not right view
    split
    · next same =>
      subst same
      have equal := Formula.iff inner left
      have opposite := L.truth_iff opposite
      refine ensures_pure ?_
      rintro _ ⟨⟩
      refine answers_of_result? rfl ((L.formula_falseId s).congr ?_)
      tauto
    · exact ensures_pure nofun
  · exact ensures_pure nofun

/-- Equality keeps its meaning. -/
theorem reduceEq_answers (separate : L.Separates s) (left : L.Denotes s a sort v)
    (right : L.Denotes s b sort w) :
    (reduceEq a b).Ensures config s fun o after =>
      L.Answers after o .bool (L.truth (v = w)) := by
  unfold reduceEq
  split
  · next same =>
    subst same
    exact answers_with rfl ((L.formula_trueId s).congr (by simp [L.unique left right]))
  · next different =>
    refine ensures_peek_bind ?_
    split
    · next literals =>
      simp only [Bool.and_eq_true, beq_iff_eq] at literals
      have unequal := separate a b sort v w left right literals.1.1 literals.1.2 different
      exact answers_with rfl ((L.formula_falseId s).congr (by simp [unequal]))
    · refine ensures_peek_bind ?_
      split
      · next bool =>
        obtain rfl : sort = .bool := by rw [← L.sort_eq left]; simpa [Store.isBool] using bool
        obtain ⟨p, rfl⟩ := L.exists_truth left
        obtain ⟨q, rfl⟩ := L.exists_truth right
        have same : L.truth p = L.truth q ↔ (p ↔ q) := ⟨L.truth_iff, fun same => by rw [same]⟩
        rw [propext same]
        refine ensures_bind (reduceIff_answers left right) fun found middle grown known => ?_
        split
        · exact ensures_pure (known _ rfl)
        · refine ensures_bind (reduceIff_answers (L.mono right grown) (L.mono left grown))
            fun found after _ known => ensures_pure ?_
          rw [iff_comm]
          cases found with
          | none => exact answers_nothing
          | some o => exact known o rfl
      · exact answers_failed

end Equality

section Difference

/-- Pairwise difference keeps its meaning. -/
theorem reduceDistinct_answers {value : TermId → L.Value} (equations : L.equations)
    (separate : L.Separates s) (each : ∀ a ∈ args, L.Denotes s a sort (value a)) :
    (reduceDistinct args).Ensures config s fun o after =>
      L.Answers after o .bool (L.truth ((args.map value).Pairwise (· ≠ ·))) := by
  unfold reduceDistinct
  split
  · next short =>
    refine answers_with rfl ((L.formula_trueId s).congr ?_)
    match args with
    | [] => simp
    | [_] => simp
    | _ :: _ :: _ => simp at short
  split
  · next twice =>
    refine answers_with rfl ((L.formula_falseId s).congr ?_)
    simp only [false_iff]
    intro different
    exact (hasRepeat_iff args).mp twice (List.Nodup.of_map _ different)
  · next once =>
    rw [hasRepeat_iff, not_not] at once
    split
    · next a b _ =>
      refine ensures_bind (ensures_lift (L.eq equations (each a (by simp)) (each b (by simp))))
        fun e _ _ equation => ?_
      refine answers_build (fun _ => rfl) ((L.not equation).imp fun _ _ _ built => ?_)
      exact Formula.congr built (by simp)
    · refine ensures_peek_bind ?_
      split
      · next literals =>
        refine answers_with rfl ((L.formula_trueId s).congr ?_)
        rw [List.all_eq_true] at literals
        simp only [true_iff, List.pairwise_map]
        refine once.imp_of_mem fun {a b} first second different => ?_
        exact separate a b sort _ _ (each a first) (each b second) (literals a first)
          (literals b second) different
      · exact answers_failed

end Difference

/-- The rules for connectives keep the sort and the value of a term. -/
theorem reduce_answers (separate : L.equations → L.Separates s) (known : L.Denotes s t sort v) :
    (Connective.reduce t).Ensures config s fun o after => L.Answers after o sort v := by
  unfold Connective.reduce
  refine ensures_peek_bind ?_
  split
  · next a view =>
    obtain ⟨rfl, p, inner, rfl⟩ := L.of_not known view
    exact reduceNot_answers inner
  · next args view => exact reduceAnd_answers known view
  · next args view => exact reduceOr_answers known view
  · next a b view =>
    obtain ⟨rfl, p, q, first, second, rfl⟩ := L.of_implies known view
    refine ensures_bind (ensures_lift (L.not first)) fun n middle grown negated => ?_
    refine answers_build (fun _ => rfl) ((mkOr_pair negated (L.mono second grown)).imp
      fun _ _ _ built => built.congr ?_)
    exact imp_iff_not_or.symm
  · next a b view =>
    obtain ⟨equations, rfl, p, q, first, second, rfl⟩ := L.of_xor known view
    refine ensures_bind (ensures_lift (L.eq equations first second)) fun e _ _ equation => ?_
    refine answers_build (fun _ => rfl) ((L.not equation).imp
      fun _ _ _ built => Formula.congr built ?_)
    exact not_congr ⟨L.truth_iff, fun same => by rw [same]⟩
  · next c a b view =>
    obtain ⟨p, x, y, condition, yes, no, rfl⟩ := L.of_ite known view
    exact reduceIte_answers condition yes no
  · next a b view =>
    obtain ⟨equations, rfl, side, x, y, left, right, rfl⟩ := L.of_eq known view
    exact reduceEq_answers (separate equations) left right
  · next args view =>
    obtain ⟨equations, rfl, side, value, each, rfl⟩ := L.of_distinct known view
    exact reduceDistinct_answers equations (separate equations) each
  · exact answers_failed

end Logic

namespace Connective

variable {s : Store} {Γ : Signature} {I : Assignment} {config : SimplifierConfig} {a b t : TermId}
  {v : Value} {sort : TermSort}

/-- A well-sorted literal is a truth value, an integer or a rational. -/
theorem literal_cases (sorted : s.WellSorted Γ a) (literal : s.isValue a) :
    (∃ b, s.node a = ⟨.bool b, [], .bool⟩) ∨ (∃ n, s.node a = ⟨.int n, [], .int⟩) ∨
      ∃ r, s.node a = ⟨.real r, [], .real⟩ := by
  have fits := sorted.fits
  unfold Store.isValue Op.isValue at literal
  unfold Store.op at fits literal
  unfold Store.args Store.sortOf at fits
  revert fits literal
  obtain ⟨op, args, sort⟩ := s.node a
  intro literal
  cases op with
  | bool => cases args <;> simp [Store.Fits]
  | int => cases args <;> simp [Store.Fits]
  | real => cases args <;> simp [Store.Fits]
  | algebraic | bitVec => simp [Store.Fits]
  | _ => cases literal

/-- Different literals of one sort have different values. -/
theorem value_ne_of_isValue (left : s.WellSorted Γ a) (right : s.WellSorted Γ b)
    (first : s.isValue a) (second : s.isValue b) (sorts : s.sortOf a = s.sortOf b)
    (different : a ≠ b) : s.value I a ≠ s.value I b := by
  intro same
  refine different (Store.eq_of_node_eq left.inside right.inside ?_)
  rw [Store.value_eq, Store.value_eq] at same
  unfold Store.op Store.args Store.sortOf at same
  unfold Store.sortOf at sorts
  obtain ⟨x, nodeA⟩ | ⟨x, nodeA⟩ | ⟨x, nodeA⟩ := literal_cases left first <;>
  obtain ⟨y, nodeB⟩ | ⟨y, nodeB⟩ | ⟨y, nodeB⟩ := literal_cases right second <;>
  simp_all [Op.denote, Op.interpret]

/-- The rules for connectives keep the meaning of a well-sorted term. -/
theorem reduce_denotes (known : s.Denotes Γ I t sort v) :
    (reduce t).Ensures config s fun o after => o.Denotes after Γ I sort v := by
  have separates : (I.semantics Γ).Separates s :=
    fun a b left right first second sorts different =>
      value_ne_of_isValue left right first second sorts different
  refine (Logic.reduce_answers (L := (I.semantics Γ).logic) (fun _ => separates.logic)
    (Assignment.denotes_iff.mpr known)).imp fun o after _ answers r found => ?_
  exact Assignment.denotes_iff.mp (answers r found)

end Connective

end Stratagem
