import Stratagem.Proofs.Reasoning

/-!
# Readings of terms as truth values

Much of what is done with formulas depends only on how they are built of others by connectives: it
is correct for every way to read terms as truth values that agrees with the connectives. A reading
is such a way, for instance the truth of formulas over numbers or over bit-vectors under an
assignment.
-/
namespace Stratagem

open Terms

/-- A reading of terms as truth values that agrees with the connectives. -/
structure Reading where
  /-- A term has a truth value. -/
  Bit : Store → TermId → Bool → Prop
  /-- Truth values do not change when the store grows. -/
  mono : ∀ {s after : Store} {t : TermId} {p : Bool}, Bit s t p → s.Extends after → Bit after t p
  /-- A term has one truth value. -/
  unique : ∀ {s : Store} {t : TermId} {p q : Bool}, Bit s t p → Bit s t q → p = q
  /-- Truth values of the literals. -/
  ofBool : ∀ (s : Store) (p : Bool), Bit s (Terms.ofBool p) p
  /-- Literals have no other truth values. -/
  of_bool : ∀ {s : Store} {t : TermId} {b p : Bool} {args : List TermId}, Bit s t p →
    s.view t = (.bool b, args) → p = b
  /-- The truth value of a negation. -/
  not : ∀ {s : Store} {a : TermId} {p : Bool}, Bit s a p →
    (mkNot a).Ensures s fun t after => Bit after t (!p)
  /-- The truth value under a negation. -/
  of_not : ∀ {s : Store} {t a : TermId} {p : Bool}, Bit s t p → s.view t = (.not, [a]) →
    Bit s a (!p)
  /-- The truth value of a conjunction. -/
  and : ∀ {s : Store} {terms : List TermId} {ps : List Bool}, List.Forall₂ (Bit s) terms ps →
    (mkAnd terms).Ensures s fun t after => Bit after t (ps.all id)
  /-- The truth value of a disjunction. -/
  or : ∀ {s : Store} {terms : List TermId} {ps : List Bool}, List.Forall₂ (Bit s) terms ps →
    (mkOr terms).Ensures s fun t after => Bit after t (ps.any id)
  /-- The truth values in a conjunction. -/
  of_and : ∀ {s : Store} {t : TermId} {terms : List TermId} {p : Bool}, Bit s t p →
    s.view t = (.and, terms) → ∃ ps, List.Forall₂ (Bit s) terms ps ∧ p = ps.all id
  /-- The truth values in a disjunction. -/
  of_or : ∀ {s : Store} {t : TermId} {terms : List TermId} {p : Bool}, Bit s t p →
    s.view t = (.or, terms) → ∃ ps, List.Forall₂ (Bit s) terms ps ∧ p = ps.any id
  /-- The truth value of a difference. -/
  xor : ∀ {s : Store} {a b : TermId} {p q : Bool}, Bit s a p → Bit s b q →
    (mkApp .xor [a, b]).Ensures s fun t after => Bit after t (p ^^ q)
  /-- The truth value of a case distinction. -/
  ite : ∀ {s : Store} {c a b : TermId} {r p q : Bool}, Bit s c r → Bit s a p → Bit s b q →
    (mkIte c a b).Ensures s fun t after => Bit after t (if r then p else q)

namespace Reading

variable {R : Reading} {s after : Store} {a b c : TermId} {p q r : Bool}

/-- The literal `true` is true. -/
theorem trueId (R : Reading) (s : Store) : R.Bit s Store.trueId true := R.ofBool s true

/-- The literal `false` is false. -/
theorem falseId (R : Reading) (s : Store) : R.Bit s Store.falseId false := R.ofBool s false

/-- The literal `true` has no other truth value. -/
theorem eq_true (known : R.Bit s a p) (literal : a = Store.trueId) : p = true :=
  R.unique known (literal ▸ R.trueId s)

/-- The literal `false` has no other truth value. -/
theorem eq_false (known : R.Bit s a p) (literal : a = Store.falseId) : p = false :=
  R.unique known (literal ▸ R.falseId s)

/-- Equal terms have equal truth values. -/
theorem eq_of_eq (left : R.Bit s a p) (right : R.Bit s b q) (same : a = b) : p = q :=
  R.unique left (same ▸ right)

/-- A term is the result of a computation with the truth value it has. -/
theorem ensures_pure (known : R.Bit s a p) (same : p = q) :
    (pure a : Terms TermId).Ensures s fun t after => R.Bit after t q := same ▸ known

/-- Terms have truth values one by one. -/
abbrev Bits (R : Reading) (s : Store) (terms : List TermId) (ps : List Bool) : Prop :=
  List.Forall₂ (R.Bit s) terms ps

/-- Truth values do not change when the store grows. -/
theorem Bits.mono {terms : List TermId} {ps : List Bool} (known : R.Bits s terms ps)
    (grown : s.Extends after) : R.Bits after terms ps :=
  known.imp fun _ _ bit => R.mono bit grown

end Reading

end Stratagem
