import Stratagem.Proofs.Steady.Visit
import Stratagem.Proofs.Term.Occurrence

/-!
# Rewriting brings in no constants

A term is over a set of constants if it has no quantifiers and all its constants are in the set.
These terms are a kind, so the rules, which are steady, stay among them, and with the rules all
visits: a simplified term has no constant that the term does not have. A term in which a constant is
replaced has the other constants of the term and those of the replacement.
-/
namespace Stratagem

open Store (Extends Kind)

variable {s after : Store} {V W : Finset TermId} {t u x d : TermId}

namespace Store

/-- A term without quantifiers whose constants are all in a set. -/
structure Over (s : Store) (V : Finset TermId) (t : TermId) : Prop where
  /-- The term is in the store. -/
  inside : t < s.size
  /-- The term has no quantifiers. -/
  plain : s.Plain t
  /-- The constants of the term are in the set. -/
  constants : ∀ c name, s.Occurs c t → s.op c = .var name → c ∈ V

namespace Over

/-- A term stays over its constants when the store grows. -/
theorem mono (ranges : s.Over V t) (grown : s.Extends after) : after.Over V t where
  inside := grown.lt_size ranges.inside
  plain u occurs := by
    have before := occurs.of_extends grown ranges.inside
    have there := before.le.trans_lt ranges.inside
    rw [grown.op_eq there, grown.args_eq there]
    exact ranges.plain u before
  constants c name occurs var := by
    have before := occurs.of_extends grown ranges.inside
    rw [grown.op_eq (before.le.trans_lt ranges.inside)] at var
    exact ranges.constants c name before var

/-- The arguments of a term are over its constants. -/
theorem of_args (t : TermId) (ranges : s.Over V t) (a : TermId) (member : a ∈ s.args t) :
    s.Over V a where
  inside := (lt_of_mem_args member).trans ranges.inside
  plain := ranges.plain.of_mem_args member
  constants c name occurs := ranges.constants c name (.there member occurs)

/-- What a head makes of terms over constants is over them. -/
theorem of_composed (inside : t < s.size) (composes : (s.op t).Composes)
    (each : ∀ a ∈ s.args t, s.Over V a) : s.Over V t where
  inside := inside
  plain u occurs := by
    obtain rfl | ⟨a, member, below⟩ := occurs.cases
    · exact ⟨composes.1, fun name var => absurd var (composes.2 name)⟩
    · exact (each a member).plain u below
  constants c name occurs var := by
    obtain rfl | ⟨a, member, below⟩ := occurs.cases
    · exact absurd var (composes.2 name)
    · exact (each a member).constants c name below var

/-- A term is made of its arguments, or it is a constant without arguments. -/
theorem composes_or_var (ranges : s.Over V t) :
    (s.op t).Composes ∨ s.args t = [] ∧ ∃ name, s.op t = .var name := by
  obtain ⟨unbound, leaf⟩ := ranges.plain t .here
  by_cases var : ∃ name, s.op t = .var name
  · obtain ⟨name, var⟩ := var
    exact .inr ⟨leaf name var, name, var⟩
  · exact .inl ⟨unbound, fun name same => var ⟨name, same⟩⟩

/-- A constant is over every set that it is in. -/
theorem of_mem (ranges : s.Over V t) (leaf : s.args t = []) (member : t ∈ W) : s.Over W t where
  inside := ranges.inside
  plain := ranges.plain
  constants c _ occurs _ := by
    obtain rfl | ⟨a, argument, _⟩ := occurs.cases
    · exact member
    · rw [leaf] at argument
      cases argument

/-- A term is over all constants but one that does not occur in it. -/
theorem erase (ranges : s.Over V t) (absent : s.occurs x t = false) : s.Over (V.erase x) t where
  inside := ranges.inside
  plain := ranges.plain
  constants c name occurs var := by
    refine Finset.mem_erase.mpr ⟨?_, ranges.constants c name occurs var⟩
    rintro rfl
    rw [occurs.occurs] at absent
    cases absent

/-- A term may be over more constants than it has. -/
theorem weaken (ranges : s.Over V t) (fewer : V ⊆ W) : s.Over W t where
  inside := ranges.inside
  plain := ranges.plain
  constants c name occurs var := fewer (ranges.constants c name occurs var)

/-- A constant that is not in the set does not occur. -/
theorem not_occurs {name : String} (ranges : s.Over V t) (var : s.op x = .var name) (out : x ∉ V) :
    ¬s.Occurs x t := fun occurs => out (ranges.constants x name occurs var)

end Over

/-- The terms over a set of constants. -/
def Kind.ofConstants (V : Finset TermId) : Kind :=
  .closed (fun s t => s.Over V t) Over.inside (fun grown ranges => ranges.mono grown)
    (fun t ranges => ranges.of_args t) Over.of_composed

end Store

namespace Rewriting

open Terms

variable {config : SimplifierConfig} {ordered : Prop} {r : Simplifier} {context : Context}

/-- Visits stay among the terms over a set of constants. -/
theorem visited_ofConstants (V : Finset TermId) (config : SimplifierConfig) :
    (Kind.ofConstants V).Visited config where
  conjunction _ := Op.composes_of_isInterpreted rfl
  rebuilt {s t args} ranges count arguments := by
    have ranges : s.Over V t := ranges
    refine (steady_rebuild_member ranges.inside arguments ?_).imp fun u after _ known =>
      Kind.below_of_member known 1
    refine ranges.composes_or_var.imp id fun alone => ⟨?_, ranges⟩
    rw [alone.1] at count ⊢
    exact (List.length_eq_zero_iff.mp count).symm
  settled below _ := below.1

/-- A simplified term has no constant that the term does not have. -/
theorem simplifyIn_over (recalls : Recalls config ordered r s) (ranges : s.Over V t) :
    (simplifyIn context t).Ensures r s
      (fun u r' after => Recalls config ordered r' after ∧ after.Over V u)
      (fun e _ _ => Limited context (stepLimit context.limits config) e) := by
  unfold simplifyIn
  refine Attempt.ensures_get_bind ?_
  rw [recalls.config_eq]
  exact simplifyWithin_member recalls (visited_ofConstants V config) ranges

end Rewriting

namespace Terms

/-- A term in which a constant is replaced has the other constants of the term and those of the
replacement. -/
def replacedOver {base : Store} (body : base.Over W d) (others : ∀ c ∈ V, c ≠ x → c ∈ W) :
    Replacement (.ofList [(x, d)]) base where
  Member s t := s.Over V t
  Stands s u _ := s.Over W u
  inside ranges := ranges.inside
  args ranges member := ranges.of_args _ _ member
  mono ranges grown := ranges.mono grown
  back grown inside ranges :=
    { inside
      plain := fun u occurs => by
        have known := ranges.plain u (occurs.mono grown inside)
        have there := occurs.le.trans_lt inside
        rwa [grown.op_eq there, grown.args_eq there] at known
      constants := fun c name occurs var => by
        refine ranges.constants c name (occurs.mono grown inside) ?_
        rwa [grown.op_eq (occurs.le.trans_lt inside)] }
  unbound ranges := (ranges.plain _ .here).1
  lasting ranges grown := ranges.mono grown
  image grown _ found := by
    obtain ⟨rfl, rfl⟩ := Substitution.getElem?_single.mp found
    exact body.mono grown
  rebuilt {s t args} grown ranges absent known := by
    have arguments : ∀ a ∈ args, (Kind.ofConstants W).Member s a := fun a member => by
      obtain ⟨_, _, here⟩ := exists_of_forall₂ known member
      exact here
    refine (steady_rebuild_member ranges.inside arguments ?_).member
    obtain composes | ⟨leaf, name, var⟩ := ranges.composes_or_var
    · exact .inl composes
    refine .inr ⟨?_, ranges.of_mem leaf ?_⟩
    · rw [leaf] at known ⊢
      cases known
      rfl
    · refine others t (ranges.constants t name .here var) ?_
      rintro rfl
      rw [Substitution.getElem?_single.mpr ⟨rfl, rfl⟩] at absent
      cases absent

/-- Replacing a constant leaves the other constants and brings in those of the replacement. -/
theorem substitute_over (body : s.Over W d) (ranges : s.Over V t)
    (others : ∀ c ∈ V, c ≠ x → c ∈ W) :
    (substitute t (.ofList [(x, d)])).Ensures s fun u after => after.Over W u := by
  have some : (Std.HashMap.ofList [(x, d)]).isEmpty = false := by
    rw [Std.HashMap.ofList_singleton, Std.HashMap.isEmpty_insert]
  exact ((replacedOver body others).substitute_ensures ranges some).imp fun _ _ _ found => found.1

end Terms
end Stratagem
