import Stratagem.Proofs.Reasoning
import Stratagem.Rewriting.Rule

/-!
# Logics

A logic gives sorts and values to terms and agrees with the connectives; whether the other values
are numbers or bit-vectors is left open. What the rules for connectives do is shown once for all
logics. A logic may be without equations; where it has none, different literals of one sort may
have one value.
-/
namespace Stratagem

open Terms

open Classical in
/-- A way to give terms sorts and values that agrees with the connectives. -/
structure Logic where
  /-- The values. -/
  Value : Type
  /-- The value of a formula. -/
  truth : Prop → Value
  /-- Whether there are equations. -/
  equations : Prop
  /-- A term has a sort and a value. -/
  Denotes : Store → TermId → TermSort → Value → Prop
  /-- Values of formulas are told apart. -/
  truth_iff {p q : Prop} : truth p = truth q → (p ↔ q)
  /-- Terms with a value are in the store. -/
  inside {s : Store} {t : TermId} {sort : TermSort} {v : Value} : Denotes s t sort v → t < s.size
  /-- The sort of a term is that of its node. -/
  sort_eq {s : Store} {t : TermId} {sort : TermSort} {v : Value} :
    Denotes s t sort v → s.sortOf t = sort
  /-- A term has one value. -/
  unique {s : Store} {t : TermId} {sort : TermSort} {v w : Value} :
    Denotes s t sort v → Denotes s t sort w → v = w
  /-- A value does not change when the store grows. -/
  mono {s after : Store} {t : TermId} {sort : TermSort} {v : Value} :
    Denotes s t sort v → s.Extends after → Denotes after t sort v
  /-- Terms of the boolean sort are formulas. -/
  exists_truth {s : Store} {t : TermId} {v : Value} : Denotes s t .bool v → ∃ p, v = truth p
  /-- Literals. -/
  literal (s : Store) (b : Bool) : Denotes s (ofBool b) .bool (truth (b = true))
  /-- Negation. -/
  not {s : Store} {a : TermId} {p : Prop} : Denotes s a .bool (truth p) →
    (mkNot a).Ensures s fun t after => Denotes after t .bool (truth ¬p)
  /-- Conjunction. -/
  and {s : Store} {args : List TermId} {α : Type} {as : List α} {p : α → Prop} :
    List.Forall₂ (fun t a => Denotes s t .bool (truth (p a))) args as →
    (mkAnd args).Ensures s fun t after => Denotes after t .bool (truth (∀ a ∈ as, p a))
  /-- Disjunction. -/
  or {s : Store} {args : List TermId} {α : Type} {as : List α} {p : α → Prop} :
    List.Forall₂ (fun t a => Denotes s t .bool (truth (p a))) args as →
    (mkOr args).Ensures s fun t after => Denotes after t .bool (truth (∃ a ∈ as, p a))
  /-- Equations of terms of one sort. -/
  eq {s : Store} {a b : TermId} {sort : TermSort} {v w : Value} : equations →
    Denotes s a sort v → Denotes s b sort w →
    (mkEq a b).Ensures s fun t after => Denotes after t .bool (truth (v = w))
  /-- Case distinctions between terms of one sort. -/
  ite {s : Store} {c a b : TermId} {sort : TermSort} {p : Prop} {v w : Value} :
    Denotes s c .bool (truth p) → Denotes s a sort v → Denotes s b sort w →
    (mkIte c a b).Ensures s fun t after => Denotes after t sort (if p then v else w)
  /-- Under a literal there is nothing. -/
  of_bool {s : Store} {t : TermId} {sort : TermSort} {v : Value} {b : Bool} {args : List TermId} :
    Denotes s t sort v → s.view t = (.bool b, args) → v = truth (b = true)
  /-- Under a negation. -/
  of_not {s : Store} {t a : TermId} {sort : TermSort} {v : Value} :
    Denotes s t sort v → s.view t = (.not, [a]) →
    sort = .bool ∧ ∃ p, Denotes s a .bool (truth p) ∧ v = truth ¬p
  /-- Under a conjunction. -/
  of_and {s : Store} {t : TermId} {args : List TermId} {sort : TermSort} {v : Value} :
    Denotes s t sort v → s.view t = (.and, args) → sort = .bool ∧
      (∀ a ∈ args, ∃ p, Denotes s a .bool (truth p)) ∧
      v = truth (∀ a ∈ args, Denotes s a .bool (truth True))
  /-- Under a disjunction. -/
  of_or {s : Store} {t : TermId} {args : List TermId} {sort : TermSort} {v : Value} :
    Denotes s t sort v → s.view t = (.or, args) → sort = .bool ∧
      (∀ a ∈ args, ∃ p, Denotes s a .bool (truth p)) ∧
      v = truth (∃ a ∈ args, Denotes s a .bool (truth True))
  /-- Under an implication. -/
  of_implies {s : Store} {t a b : TermId} {sort : TermSort} {v : Value} :
    Denotes s t sort v → s.view t = (.implies, [a, b]) → sort = .bool ∧
      ∃ p q, Denotes s a .bool (truth p) ∧ Denotes s b .bool (truth q) ∧ v = truth (p → q)
  /-- Under an exclusive disjunction, which is a negated equation. -/
  of_xor {s : Store} {t a b : TermId} {sort : TermSort} {v : Value} :
    Denotes s t sort v → s.view t = (.xor, [a, b]) → equations ∧ sort = .bool ∧
      ∃ p q, Denotes s a .bool (truth p) ∧ Denotes s b .bool (truth q) ∧ v = truth ¬(p ↔ q)
  /-- Under a case distinction. -/
  of_ite {s : Store} {t c a b : TermId} {sort : TermSort} {v : Value} :
    Denotes s t sort v → s.view t = (.ite, [c, a, b]) →
    ∃ p x y, Denotes s c .bool (truth p) ∧ Denotes s a sort x ∧ Denotes s b sort y ∧
      v = if p then x else y
  /-- Under an equation. -/
  of_eq {s : Store} {t a b : TermId} {sort : TermSort} {v : Value} :
    Denotes s t sort v → s.view t = (.eq, [a, b]) → equations ∧ sort = .bool ∧
      ∃ side x y, Denotes s a side x ∧ Denotes s b side y ∧ v = truth (x = y)
  /-- Under a pairwise difference. -/
  of_distinct {s : Store} {t : TermId} {args : List TermId} {sort : TermSort} {v : Value} :
    Denotes s t sort v → s.view t = (.distinct, args) → equations ∧ sort = .bool ∧
      ∃ side value, (∀ a ∈ args, Denotes s a side (value a)) ∧
        v = truth ((args.map value).Pairwise (· ≠ ·))

namespace Logic

variable {L : Logic} {s after : Store} {t a : TermId} {sort : TermSort} {v w : L.Value}
  {p q : Prop} {o : Outcome}

/-- A formula with its truth value. -/
abbrev Formula (L : Logic) (s : Store) (t : TermId) (p : Prop) : Prop :=
  L.Denotes s t .bool (L.truth p)

/-- A term that has a truth value. -/
def IsFormula (L : Logic) (s : Store) (t : TermId) : Prop := ∃ p, L.Formula s t p

/-- A formula is true. -/
def Holds (L : Logic) (s : Store) (t : TermId) : Prop := L.Formula s t True

/-- The result, if there is one, has a sort and a value. -/
def Answers (L : Logic) (s : Store) (o : Outcome) (sort : TermSort) (v : L.Value) : Prop :=
  ∀ r, o.result? = some r → L.Denotes s r sort v

/-- Different literals of one sort have different values. -/
def Separates (L : Logic) (s : Store) : Prop :=
  ∀ a b sort v w, L.Denotes s a sort v → L.Denotes s b sort w → s.isValue a → s.isValue b →
    a ≠ b → v ≠ w

namespace Formula

/-- A formula may be read as any equivalent proposition. -/
theorem congr (known : L.Formula s t p) (same : p ↔ q) : L.Formula s t q := propext same ▸ known

/-- A formula has one truth value. -/
theorem iff (known : L.Formula s t p) (other : L.Formula s t q) : p ↔ q :=
  L.truth_iff (L.unique known other)

/-- A formula holds if its truth value does. -/
theorem holds_iff (known : L.Formula s t p) : L.Holds s t ↔ p := by
  constructor
  · exact fun holds => (iff holds known).mp trivial
  · exact fun true => known.congr (iff_of_true true trivial)

end Formula

/-- A formula has the truth value that says whether it holds. -/
theorem IsFormula.self (known : L.IsFormula s t) : L.Formula s t (L.Holds s t) := by
  obtain ⟨p, formula⟩ := known
  exact formula.congr formula.holds_iff.symm

/-- The literal `true`. -/
theorem formula_trueId (L : Logic) (s : Store) : L.Formula s Store.trueId True :=
  Formula.congr (L.literal s true) (by simp)

/-- The literal `false`. -/
theorem formula_falseId (L : Logic) (s : Store) : L.Formula s Store.falseId False :=
  Formula.congr (L.literal s false) (by simp)

section Building

variable {b : TermId} (left : L.Formula s a p) (right : L.Formula s b q)
include left right

/-- Conjunction of two formulas. -/
theorem mkAnd_pair : (mkAnd [a, b]).Ensures s fun t after => L.Formula after t (p ∧ q) := by
  have both : List.Forall₂ (fun t r => L.Formula s t (id r)) [a, b] [p, q] :=
    .cons left (.cons right .nil)
  refine (L.and both).imp fun t after _ built => Formula.congr built ?_
  rw [List.forall_mem_cons, List.forall_mem_singleton]
  exact Iff.rfl

/-- Disjunction of two formulas. -/
theorem mkOr_pair : (mkOr [a, b]).Ensures s fun t after => L.Formula after t (p ∨ q) := by
  have both : List.Forall₂ (fun t r => L.Formula s t (id r)) [a, b] [p, q] :=
    .cons left (.cons right .nil)
  refine (L.or both).imp fun t after _ built => Formula.congr built ?_
  rw [List.exists_mem_cons_iff, List.exists_mem_cons_iff]
  simp

end Building

/-- No result has a value. -/
theorem answers_nothing : L.Answers s .failed sort v := nofun

/-- A result has the value of its term. -/
theorem answers_of_result? (result : o.result? = some t) (known : L.Denotes s t sort v) :
    L.Answers s o sort v := by
  intro r found
  obtain rfl := Option.some.inj (result.symm.trans found)
  exact known

section Answering

open Rule

variable {config : SimplifierConfig}

/-- A rule that gives up answers nothing else. -/
theorem answers_failed :
    (pure .failed : Rule Outcome).Ensures config s fun o after => L.Answers after o sort v :=
  ensures_pure answers_nothing

/-- A rule answers with a term that has the value. -/
theorem answers_with (result : o.result? = some t) (known : L.Denotes s t sort v) :
    (pure o : Rule Outcome).Ensures config s fun o after => L.Answers after o sort v :=
  ensures_pure (answers_of_result? result known)

/-- A rule answers with a term that it builds and that has the value. -/
theorem answers_build {work : Terms TermId} {answer : TermId → Outcome}
    (result : ∀ t, (answer t).result? = some t)
    (built : work.Ensures s fun t after => L.Denotes after t sort v) :
    (liftM work >>= fun t => pure (answer t) : Rule Outcome).Ensures config s
      fun o after => L.Answers after o sort v :=
  ensures_bind (ensures_lift built) fun t _ _ known => answers_with (result t) known

end Answering

end Logic

end Stratagem
