import Stratagem.Proofs.Rewriting.Memory

/-!
# Visits stay in a kind of terms

The result of a visit is of a kind if the term is of its class, or, where the visit only goes down
to a depth, if the terms that far below are of the kind. Besides the rules, which are steady, this
takes two things of a kind: putting new arguments in the place of the old ones, and a term that no
rule applies to. What the arguments are visited to becomes of the kind, so the rules find arguments
of the kind, and what they ask to be visited again is of the kind from there on.
-/
namespace Stratagem

open Store (Extends Kind)

variable {K : Kind} {config : SimplifierConfig} {depth : Option ℕ} {levels : ℕ} {s after : Store}
  {t u : TermId}

/-- What is asked of a term that is visited to a depth: terms of a kind are that far below. -/
def Store.Kind.Reach (K : Kind) : Option ℕ → Store → TermId → Prop
  | some depth => K.Below depth
  | none => K.Wide

/-- What is asked of a visited term holds when the store has grown. -/
theorem Store.Kind.Reach.mono (reach : K.Reach depth s t) (grown : s.Extends after) :
    K.Reach depth after t := by
  cases depth with
  | none => exact K.wide_mono grown reach
  | some depth => exact Kind.Below.mono reach grown

/-- A visited term is of the class of the kind. -/
theorem Store.Kind.Reach.wide (reach : K.Reach depth s t) : K.Wide s t := by
  cases depth with
  | none => exact reach
  | some depth => exact Kind.Below.wide reach

/-- The arguments of a term that is visited to a depth may be visited to the depth below. -/
theorem Store.Kind.Reach.of_args (reach : K.Reach depth s t) (deep : depth ≠ some 0) :
    ∀ a ∈ s.args t, K.Reach (Rewriting.below depth) s a := by
  obtain _ | _ | depth := depth
  · exact K.wide_of_args t reach
  · exact absurd rfl deep
  · exact reach.2

/-- A kind that visits stay in. -/
structure Store.Kind.Visited (K : Kind) (config : SimplifierConfig) : Prop where
  /-- Conjunctions are of the kind unless they are written as disjunctions. -/
  conjunction : config.elimAnd = false → K.Head .and
  /-- With arguments of the kind a term of the class has terms of the kind one level below. -/
  rebuilt : ∀ {s : Store} {t : TermId} {args : List TermId}, K.Wide s t →
    args.length = (s.args t).length → (∀ a ∈ args, K.Member s a) →
      (Terms.rebuild t args).Steady s fun u after => K.Below 1 after u
  /-- A term that no rule applies to is of the kind. -/
  settled : ∀ {s after : Store} {t : TermId}, K.Below 1 s t →
    (Rewriting.reduce t).Yields config s .failed after → K.Member s t

namespace Rewriting

/-- Visits one after the other have as many results as there are terms. -/
theorem InTurn.length {visits : Store → TermId → TermId → Store → Prop}
    {terms results : List TermId} (known : InTurn visits s terms results after) :
    results.length = terms.length := by
  induction known with
  | nil => rfl
  | cons _ _ rest => rw [List.length_cons, List.length_cons, rest]

/-- Visits one after the other stay in a kind of terms if each of them does. -/
theorem InTurn.member {visits : Store → TermId → TermId → Store → Prop}
    {terms results : List TermId} (known : InTurn visits s terms results after)
    (each : ∀ s t u after, visits s t u after →
      s.Extends after ∧ (K.Reach depth s t → K.Member after u))
    (reach : ∀ t ∈ terms, K.Reach depth s t) : ∀ u ∈ results, K.Member after u := by
  induction known with
  | nil => simp
  | cons first others rest =>
    obtain ⟨here, later⟩ := List.forall_mem_cons.mp reach
    obtain ⟨grown, result⟩ := each _ _ _ _ first
    have more := others.grown fun _ _ _ _ known => (each _ _ _ _ known).1
    exact List.forall_mem_cons.mpr
      ⟨K.mono more (result here), rest fun t member => (later t member).mono grown⟩

/-- The result of a visit is of a kind that visits stay in. -/
theorem Visits.member (stays : K.Visited config)
    (known : Visits config levels depth s t u after) (reach : K.Reach depth s t) :
    K.Member after u := by
  induction levels generalizing depth s t u after with
  | zero => exact known.elim
  | succ levels lower =>
    rw [Visits] at known
    split at known
    · next stop =>
      obtain ⟨rfl, rfl⟩ := known
      obtain rfl := stop
      exact reach
    next deep =>
    obtain ⟨_, _, args, first, t', second, outcome, third, visited, rebuilt, reduced, finished⟩ :=
      known
    have grown : s.Extends first := visited.grown fun _ _ _ _ => Visits.grown
    have arguments : ∀ a ∈ args, K.Member first a :=
      visited.member (fun _ _ _ _ known => ⟨known.grown, lower known⟩) (reach.of_args deep)
    have ready : K.Below 1 second t' := by
      have wide := (reach.mono grown).wide
      have count : args.length = (first.args t).length := by
        rw [visited.length, grown.args_eq (K.wide_inside reach.wide)]
      exact (stays.rebuilt wide count arguments).of_leads rebuilt.leads
        fun _ _ _ more below => below.mono more
    have within : outcome.Within K third :=
      (steady_reduce ready stays.conjunction).of_leads reduced.leads
        fun _ _ _ more within => within.mono more
    cases outcome with
    | failed =>
      obtain ⟨rfl, rfl⟩ := finished
      exact K.mono reduced.grown (stays.settled ready reduced)
    | done r =>
      obtain ⟨rfl, rfl⟩ := finished
      exact within
    | revisit | revisitAll => exact lower finished within

/-- A simplified term is of a kind that visits stay in. -/
theorem simplifyWithin_member {ordered : Prop} {r : Simplifier} {context : Context} {limit : ℕ}
    (recalls : Recalls config ordered r s) (stays : K.Visited config) (wide : K.Wide s t) :
    (simplifyWithin context limit t).Ensures r s
      (fun u r' after => Recalls config ordered r' after ∧ K.Member after u)
      (fun e _ _ => Limited context limit e) := by
  refine (simplifyWithin_visits recalls).imp (fun u r' after _ found => ?_)
    fun _ _ _ _ failed => failed.2 (K.wide_inside wide)
  obtain ⟨recalls, _, levels, visits⟩ := found
  exact ⟨recalls, visits.member stays wide⟩

end Rewriting
end Stratagem
