import Stratagem.Proofs.Rewriting.Effort
import Stratagem.Proofs.Rewriting.Unlimited

/-!
# Limits on steps

The limit on the steps of a rewriting is no part of what it does: a rewriting that stays within a
limit does the same under every larger one, and one that exceeds a limit exceeds every smaller one.
A step under a limit agrees with the step under a larger limit, or it exceeds its limit; a rewriting
is made of steps and of work that does not look at limits, so it agrees too. The limit may come from
the configuration, which changes with it.

The fuel of a visit is no limit of its own: every level of the recursion that does work takes a
step, so a visit whose steps and fuel exceed the limit together fails by the limit only after the
first step that is too many.
-/
namespace Stratagem

variable {α β : Type}

/-- A simplifier with another limit on steps. -/
def Simplifier.withMaxSteps (r : Simplifier) (n : ℕ) : Simplifier :=
  { r with config := r.config.withMaxSteps n }

/-- The same circumstances with another limit on steps, or without one. -/
def Context.withMaxSteps (context : Context) (n : Option ℕ) : Context :=
  { context with limits := { context.limits with maxSteps := n } }

/-- Checking the circumstances does not look at the limit on steps. -/
theorem Context.check_withMaxSteps (context : Context) (n : Option ℕ) :
    (context.withMaxSteps n).check = context.check := rfl

/-- An attempt that cannot succeed has a run that fails. -/
theorem Attempt.Ensures.exists_error {σ : Type} {work : Attempt σ α} {state : σ} {s : Store}
    {bad : Error → σ → Store → Prop} (ensured : work.Ensures state s (fun _ _ _ => False) bad) :
    ∃ e state' after, (work.runFrom state).run s = ((.error e, state'), after) ∧
      bad e state' after := by
  unfold Attempt.Ensures Terms.Ensures at ensured
  generalize (work.runFrom state).run s = result at ensured
  obtain ⟨⟨outcome, state'⟩, after⟩ := result
  cases outcome with
  | ok => exact ensured.elim
  | error e => exact ⟨e, state', after, rfl, ensured⟩

namespace Rewriting

open Rule

variable {n m k fuel fuel' : ℕ} {context context' : Context}

/-- What a run leaves: its outcome, the simplifier and the store. -/
abbrev Ending (α : Type) := (Except Error α × Simplifier) × Store

/-- What a run leaves, where the simplifier has another limit on steps. -/
def Ending.withMaxSteps (ending : Ending α) (k : ℕ) : Ending α :=
  ((ending.1.1, ending.1.2.withMaxSteps k), ending.2)

/-- A rewriting agrees with another one that has more steps: it exceeds its limit, or the other one
does the same with a simplifier that has a limit `k` in its configuration. -/
def AgreesWith (n k : ℕ) (strict relaxed : Rewriting α) : Prop :=
  ∀ r s, ((strict.runFrom r).run s).1.1 = .error (.stepsExceeded n) ∨
    (relaxed.runFrom (r.withMaxSteps k)).run s =
      Ending.withMaxSteps ((strict.runFrom r).run s) k

namespace AgreesWith

variable {strict relaxed : Rewriting α}

/-- A result alone. -/
theorem of_pure (a : α) : AgreesWith n k (pure a) (pure a) := fun _ _ => .inr rfl

/-- A rewriting that has exceeded its limit agrees with everything. -/
theorem of_exceeded : AgreesWith n k (throw (.stepsExceeded n)) relaxed := fun _ _ => .inl rfl

/-- A failure for another reason. -/
theorem of_throw (e : Error) : AgreesWith n k (throw e : Rewriting α) (throw e) :=
  fun _ _ => .inr rfl

/-- Building terms. -/
theorem of_build (work : Terms α) :
    AgreesWith n k (liftM work : Rewriting α) (liftM work : Rewriting α) := fun _ _ => .inr rfl

/-- Looking at the store. -/
theorem of_read :
    AgreesWith n k (readThe Store : Rewriting Store) (readThe Store : Rewriting Store) :=
  fun _ _ => .inr rfl

/-- A change of the simplifier that has nothing to do with its limit. -/
theorem of_modify {change : Simplifier → Simplifier}
    (aside : ∀ r : Simplifier, change (r.withMaxSteps k) = (change r).withMaxSteps k) :
    AgreesWith n k (modify change : Rewriting Unit) (modify change : Rewriting Unit) := by
  intro r s
  right
  show (((.ok (), change (r.withMaxSteps k)) : Except Error Unit × Simplifier), s) = _
  rw [aside]
  rfl

/-- Looking at the simplifier, and then rewritings that agree for what is seen. -/
theorem get_bind {next relaxedNext : Simplifier → Rewriting β}
    (rest : ∀ r : Simplifier, AgreesWith n k (next r) (relaxedNext (r.withMaxSteps k))) :
    AgreesWith n k (get >>= next) (get >>= relaxedNext) := fun r s => rest r r s

/-- A rule. -/
theorem of_rule {rule : Rule α} (unlimited : Unlimited rule) :
    AgreesWith n k ((runRule rule : StateT Simplifier Terms α) : Rewriting α)
      ((runRule rule : StateT Simplifier Terms α) : Rewriting α) := by
  intro r s
  right
  show (fun found : (α × RuleTally) × Store =>
      (((.ok found.1.1, { r.withMaxSteps k with tally := found.1.2 }) :
        Except Error α × Simplifier), found.2))
      (((rule.run (r.config.withMaxSteps k)).run r.tally).run s) = _
  rw [unlimited]
  rfl

/-- Rewritings that agree, and then others that do: the first failure is that of the whole. -/
theorem bind {next relaxedNext : α → Rewriting β} (first : AgreesWith n k strict relaxed)
    (rest : ∀ a, AgreesWith n k (next a) (relaxedNext a)) :
    AgreesWith n k (strict >>= next) (relaxed >>= relaxedNext) := by
  intro r s
  rw [Attempt.run_bind, Attempt.run_bind]
  rcases first r s with exceeded | same
  · left
    generalize (strict.runFrom r).run s = ending at exceeded
    obtain ⟨⟨outcome, r'⟩, after⟩ := ending
    dsimp only at exceeded
    rw [exceeded]
  · rw [same]
    generalize (strict.runFrom r).run s = ending
    obtain ⟨⟨_ | a, r'⟩, after⟩ := ending
    · exact .inr rfl
    · exact rest a r' after

/-- Rewritings that agree on every member of a list. -/
theorem mapM {strict relaxed : α → Rewriting β} (each : ∀ a, AgreesWith n k (strict a) (relaxed a))
    (members : List α) : AgreesWith n k (members.mapM strict) (members.mapM relaxed) := by
  induction members with
  | nil => exact .of_pure _
  | cons a rest others =>
    rw [List.mapM_cons, List.mapM_cons]
    exact (each a).bind fun _ => others.bind fun _ => .of_pure _

end AgreesWith

open AgreesWith

/-- Checks of the circumstances that interrupt alike. -/
theorem check_agreesWith (checks : context'.check = context.check) :
    AgreesWith n k (Attempt.check context) (Attempt.check context') := by
  unfold Attempt.check
  rw [checks]
  refine of_read.bind fun s => ?_
  cases context.check s with
  | ok => exact .of_pure _
  | error e => exact .of_throw e

/-- A step agrees with a step under a larger limit. -/
theorem step_agreesWith (le : n ≤ m) (checks : context'.check = context.check) :
    AgreesWith n k (step context n) (step context' m) := by
  unfold step
  refine (of_modify fun _ => rfl).bind fun _ => .get_bind fun r => ?_
  have steps : (r.withMaxSteps k).steps = r.steps := rfl
  by_cases exceeded : n < r.steps
  · rw [if_pos exceeded]
    exact .of_exceeded
  · have within : ¬ m < (r.withMaxSteps k).steps := by omega
    rw [if_neg exceeded, if_neg within]
    exact check_agreesWith checks

/-- Looking for the term. -/
theorem known_agreesWith (t : TermId) : AgreesWith n k (known t) (known t) := by
  unfold known
  refine of_read.bind fun s => ?_
  split
  · exact .of_throw _
  · exact .of_pure _

/-- Looking for a remembered result. -/
theorem remembered_agreesWith (depth : Option ℕ) (t : TermId) :
    AgreesWith n k (remembered depth t) (remembered depth t) := by
  unfold remembered
  split
  · exact .get_bind fun _ => .of_pure _
  · exact .of_pure _

/-- Remembering a result. -/
theorem remember_agreesWith (depth : Option ℕ) (t result : TermId) :
    AgreesWith n k (remember depth t result) (remember depth t result) := by
  unfold remember
  split
  · exact .of_modify fun _ => rfl
  · exact .of_pure _

/-- Counting a rule that applied. -/
theorem countRule_agreesWith (outcome : Outcome) :
    AgreesWith n k (countRule outcome) (countRule outcome) := by
  unfold countRule
  split
  · exact .of_pure _
  · exact .of_modify fun _ => rfl

/-- Rewriting a term, if visits agree. -/
theorem rewriteWith_agreesWith {visit relaxedVisit : Option ℕ → TermId → Rewriting TermId}
    (visits : ∀ depth t, AgreesWith n k (visit depth t) (relaxedVisit depth t)) (depth : Option ℕ)
    (t : TermId) :
    AgreesWith n k (rewriteWith visit depth t) (rewriteWith relaxedVisit depth t) := by
  unfold rewriteWith
  refine of_read.bind fun s => ?_
  refine (AgreesWith.mapM (fun a => visits (below depth) a) _).bind fun args => ?_
  refine (of_build _).bind fun t' => ?_
  refine (of_rule (reduce_unlimited t')).bind fun outcome => ?_
  refine (countRule_agreesWith outcome).bind fun _ => ?_
  cases outcome with
  | failed => exact .of_pure _
  | done u => exact .of_pure _
  | revisit again u => exact visits (some again) u
  | revisitAll u => exact visits none u

/-- A visit agrees with a visit of the same term that has more steps and more levels. -/
theorem visit_agreesWith (le : n ≤ m) (checks : context'.check = context.check)
    (levels : fuel ≤ fuel') (depth : Option ℕ) (t : TermId) :
    AgreesWith n k (visit context n fuel depth t) (visit context' m fuel' depth t) := by
  induction fuel generalizing fuel' depth t with
  | zero => exact .of_exceeded
  | succ fuel deeper =>
    obtain ⟨fuel', rfl⟩ := Nat.exists_eq_succ_of_ne_zero (Nat.ne_zero_of_lt levels)
    unfold visit
    split
    · exact .of_pure _
    · refine (of_modify fun _ => rfl).bind fun _ => ?_
      refine (remembered_agreesWith depth t).bind fun found => ?_
      cases found with
      | some u => exact (of_modify fun _ => rfl).bind fun _ => .of_pure u
      | none =>
        refine (step_agreesWith le checks).bind fun _ => ?_
        refine (known_agreesWith t).bind fun _ => ?_
        have visits := fun depth t => deeper (Nat.le_of_succ_le_succ levels) depth t
        refine (rewriteWith_agreesWith visits depth t).bind fun u => ?_
        exact (remember_agreesWith depth t u).bind fun _ => .of_pure u

/-- Simplifying a term agrees with simplifying it under a larger limit. -/
theorem simplifyWithin_agreesWith (le : n ≤ m) (checks : context'.check = context.check)
    (t : TermId) : AgreesWith n k (simplifyWithin context n t) (simplifyWithin context' m t) := by
  unfold simplifyWithin
  refine (of_modify fun _ => rfl).bind fun _ => ?_
  exact visit_agreesWith le checks (Nat.succ_le_succ le) none t

section Counting

variable {limit : ℕ} {r r' : Simplifier} {s : Store}

/-- A simplifier that went on within a limit. -/
structure StaysWithin (limit : ℕ) (r r' : Simplifier) : Prop where
  /-- Steps are only added. -/
  grows : r.steps ≤ r'.steps
  /-- There are not too many. -/
  steps : r'.steps ≤ limit

/-- The limit on steps is exceeded by the first step that is too many. -/
def Exceeds (limit : ℕ) (e : Error) (r' : Simplifier) : Prop :=
  ∀ n, e = .stepsExceeded n → n = limit ∧ r'.steps = limit + 1

/-- A rewriting that goes on within a limit, unless it fails, and that has levels enough to exceed
the limit. -/
def Counts (limit fuel : ℕ) (work : Rewriting α) : Prop :=
  ∀ r s, r.steps ≤ limit → limit < r.steps + fuel →
    work.Ensures r s (fun _ r' _ => StaysWithin limit r r') fun e r' _ => Exceeds limit e r'

/-- Circumstances are no limit on steps. -/
theorem check_ne_stepsExceeded (context : Context) (s : Store) (n : ℕ) :
    context.check s ≠ .error (.stepsExceeded n) := by
  unfold Context.check
  split
  · nofun
  · split
    · nofun
    · split
      · split <;> nofun
      · nofun

/-- A step within the limit is counted, and the next one exceeds it. -/
theorem step_counts (within : r.steps ≤ limit) :
    (step context limit).Ensures r s (fun _ r' _ => r'.steps = r.steps + 1 ∧ r'.steps ≤ limit)
      fun e r' _ => Exceeds limit e r' := by
  apply Attempt.ensures_modify_bind
  apply Attempt.ensures_get_bind
  dsimp only
  split
  · next exceeded =>
    refine Attempt.ensures_throw fun n same => ?_
    cases same
    exact ⟨rfl, by dsimp only; omega⟩
  · next few =>
    apply Attempt.ensures_read_bind
    cases checked : context.check s with
    | ok => exact Attempt.ensures_pure ⟨rfl, Nat.le_of_not_lt few⟩
    | error e =>
      refine Attempt.ensures_throw fun n same => ?_
      subst same
      exact absurd checked (check_ne_stepsExceeded context s n)

/-- Rewriting a term takes the steps of the visits. -/
theorem rewriteWith_counts {visit : Option ℕ → TermId → Rewriting TermId}
    (visits : ∀ depth t, Counts limit fuel (visit depth t)) (depth : Option ℕ) (t : TermId) :
    Counts limit fuel (rewriteWith visit depth t) := by
  intro r s within enough
  apply Attempt.ensures_read_bind
  have arguments : ((s.args t).mapM (visit (below depth))).Ensures r s
      (fun args r' after => r.steps ≤ r'.steps ∧ r'.steps ≤ limit ∧
        List.Forall₂ (fun _ _ => True) (s.args t) args) fun e r' _ => Exceeds limit e r' := by
    refine Attempt.ensures_mapM_leads (L := fun r r' : Simplifier => r.steps ≤ r'.steps)
      (fun _ => Nat.le_refl _) (fun _ _ _ => Nat.le_trans) (fun _ _ _ _ _ _ _ _ _ => trivial)
      (s.args t) within fun a _ r' now _ grows within => ?_
    exact (visits (below depth) a r' now within (by omega)).imp
      (fun _ _ _ _ counted => ⟨counted.grows, counted.steps, trivial⟩) fun _ _ _ _ failed => failed
  apply Attempt.ensures_bind arguments
  rintro args r' now _ ⟨grows, within, _⟩
  apply Attempt.ensures_build_bind_of_all
  intro t' built _
  have ruled : (reduce t').Ensures r'.config built fun _ _ => True := fun _ => trivial
  apply ensures_runRule_bind ruled
  intro outcome tally after _ _
  have idle : StaysWithin limit r { r' with tally } := ⟨grows, within⟩
  have counted : StaysWithin limit r { r' with tally, rewritten := r'.rewritten + 1 } :=
    ⟨grows, within⟩
  have again (depth : Option ℕ) (u : TermId) :
      (visit depth u).Ensures { r' with tally, rewritten := r'.rewritten + 1 } after
        (fun _ r' _ => StaysWithin limit r r') fun e r' _ => Exceeds limit e r' := by
    have visited := visits depth u { r' with tally, rewritten := r'.rewritten + 1 } after within
      (by dsimp only; omega)
    exact visited.imp (fun _ _ _ _ more => ⟨grows.trans more.grows, more.steps⟩)
      fun _ _ _ _ failed => failed
  cases outcome with
  | failed => exact Attempt.ensures_pure_bind (Attempt.ensures_pure idle)
  | done u => exact Attempt.ensures_modify_bind (Attempt.ensures_pure counted)
  | revisit depth u => exact Attempt.ensures_modify_bind (again (some depth) u)
  | revisitAll u => exact Attempt.ensures_modify_bind (again none u)

/-- A visit that has levels enough fails by the limit on steps only when it exceeds it. -/
theorem visit_counts (context : Context) (limit fuel : ℕ) (depth : Option ℕ) (t : TermId) :
    Counts limit fuel (visit context limit fuel depth t) := by
  induction fuel generalizing depth t with
  | zero =>
    intro r s within enough
    omega
  | succ fuel deeper =>
    intro r s within enough
    unfold visit
    split
    · exact Attempt.ensures_pure ⟨Nat.le_refl _, within⟩
    · apply Attempt.ensures_modify_bind
      have looked : (remembered depth t).Ensures { r with visited := r.visited + 1 } s
          (fun _ r' _ => r'.steps = r.steps) fun e r' _ => Exceeds limit e r' := by
        unfold remembered
        split
        · exact Attempt.ensures_get_bind (Attempt.ensures_pure rfl)
        · exact Attempt.ensures_pure rfl
      apply Attempt.ensures_bind looked
      intro found r₁ s _ same
      cases found with
      | some u =>
        exact Attempt.ensures_modify_bind (Attempt.ensures_pure ⟨same.ge, same.le.trans within⟩)
      | none =>
        apply Attempt.ensures_bind (step_counts (same.le.trans within))
        rintro _ r₂ s _ ⟨counted, within⟩
        have found : (known t).Ensures r₂ s (fun _ r' _ => r' = r₂)
            fun e r' _ => Exceeds limit e r' := by
          apply Attempt.ensures_read_bind
          split
          · refine Attempt.ensures_throw fun n same => ?_
            cases same
          · exact Attempt.ensures_pure rfl
        apply Attempt.ensures_bind found
        rintro _ r₂ s _ rfl
        apply Attempt.ensures_bind (rewriteWith_counts deeper depth t r₂ s within (by omega))
        intro u r₃ s _ more
        have grows : r.steps ≤ r₃.steps := by
          have added := more.grows
          omega
        unfold remember
        split
        · exact Attempt.ensures_modify_bind (Attempt.ensures_pure ⟨grows, more.steps⟩)
        · exact Attempt.ensures_pure_bind (Attempt.ensures_pure ⟨grows, more.steps⟩)

/-- Simplifying a term takes at most as many steps as allowed. -/
theorem simplifyWithin_counts (context : Context) (limit : ℕ) (t : TermId) (r : Simplifier)
    (s : Store) : (simplifyWithin context limit t).Ensures r s
      (fun _ r' _ => r'.steps ≤ limit) fun e r' _ => Exceeds limit e r' := by
  apply Attempt.ensures_modify_bind
  have counted := visit_counts context limit (limit + 1) none t { r with steps := 0 } s
    (Nat.zero_le limit) (by dsimp only; omega)
  exact counted.imp (fun _ _ _ _ within => within.steps) fun _ _ _ _ failed => failed

/-- A visit of a term that is not remembered fails if all steps are taken. -/
theorem visit_exceeds {depth : Option ℕ} (deep : depth ≠ some 0) (new : r.memo[t]? = none)
    (taken : limit ≤ r.steps) : (visit context limit (fuel + 1) depth t).Ensures r s
      (fun _ _ _ => False) fun e _ _ => e = .stepsExceeded limit := by
  unfold visit
  rw [if_neg deep]
  apply Attempt.ensures_modify_bind
  have looked : (remembered depth t).Ensures { r with visited := r.visited + 1 } s
      (fun found r' _ => found = none ∧ r'.steps = r.steps)
      fun e _ _ => e = .stepsExceeded limit := by
    unfold remembered
    split
    · exact Attempt.ensures_get_bind (Attempt.ensures_pure ⟨new, rfl⟩)
    · exact Attempt.ensures_pure ⟨rfl, rfl⟩
  apply Attempt.ensures_bind looked
  rintro _ r' s _ ⟨rfl, same⟩
  have stepped : (step context limit).Ensures r' s (fun _ _ _ => False)
      fun e _ _ => e = .stepsExceeded limit := by
    apply Attempt.ensures_modify_bind
    apply Attempt.ensures_get_bind
    dsimp only
    rw [if_pos (by omega)]
    exact Attempt.ensures_throw rfl
  exact Attempt.ensures_bind stepped fun _ _ _ _ none => none.elim

end Counting

/-- The limits on steps that a rewriting meets. -/
structure StepLimits where
  /-- What the circumstances allow, if they set a limit. -/
  given : Option ℕ := none
  /-- What the configuration allows. -/
  most : ℕ

namespace StepLimits

variable {few more : StepLimits} {r r' : Simplifier} {s after : Store} {t u : TermId} {e : Error}

/-- The steps that are allowed. -/
def least (limits : StepLimits) : ℕ :=
  stepLimit { maxSteps := limits.given } { maxSteps := limits.most }

/-- The run that simplifies a term under limits on steps. -/
def simplify (limits : StepLimits) (context : Context) (t : TermId) (r : Simplifier) (s : Store) :
    Ending TermId :=
  ((simplifyIn (context.withMaxSteps limits.given) t).runFrom (r.withMaxSteps limits.most)).run s

/-- Every simplification in given circumstances is such a run. -/
theorem simplify_eq_simplifyIn (context : Context) (t : TermId) (r : Simplifier) (s : Store) :
    simplify ⟨context.limits.maxSteps, r.config.maxSteps⟩ context t r s =
      ((simplifyIn context t).runFrom r).run s := rfl

/-- A simplification that is limited only by the configuration is such a run. -/
theorem simplify_eq_simplify (n : ℕ) (t : TermId) (r : Simplifier) (s : Store) :
    simplify ⟨none, n⟩ .unbounded t r s =
      ((Rewriting.simplify t).runFrom (r.withMaxSteps n)).run s := rfl

/-- Such a run simplifies the term with at most the allowed number of steps. -/
theorem simplify_eq_simplifyWithin (limits : StepLimits) (context : Context) (t : TermId)
    (r : Simplifier) (s : Store) :
    limits.simplify context t r s =
      ((simplifyWithin (context.withMaxSteps limits.given) limits.least t).runFrom
        (r.withMaxSteps limits.most)).run s := rfl

/-- A run under limits agrees with the runs under larger ones. -/
theorem simplify_agrees (le : few.least ≤ more.least) (context : Context) (t : TermId)
    (r : Simplifier) (s : Store) :
    (few.simplify context t r s).1.1 = .error (.stepsExceeded few.least) ∨
      more.simplify context t r s = (few.simplify context t r s).withMaxSteps more.most := by
  rw [simplify_eq_simplifyWithin, simplify_eq_simplifyWithin]
  have checks : (context.withMaxSteps more.given).check = (context.withMaxSteps few.given).check :=
    (context.check_withMaxSteps _).trans (context.check_withMaxSteps _).symm
  exact simplifyWithin_agreesWith le checks t (r.withMaxSteps few.most) s

/-- A run takes at most as many steps as allowed, or exceeds the limit with the next one. -/
theorem simplify_counts (limits : StepLimits) (context : Context) (t : TermId) (r : Simplifier)
    (s : Store) : (∀ u r' after, limits.simplify context t r s = ((.ok u, r'), after) →
        r'.steps ≤ limits.least) ∧
      ∀ n r' after, limits.simplify context t r s = ((.error (.stepsExceeded n), r'), after) →
        n = limits.least ∧ r'.steps = limits.least + 1 := by
  rw [simplify_eq_simplifyWithin]
  have counted := simplifyWithin_counts (context.withMaxSteps limits.given) limits.least t
    (r.withMaxSteps limits.most) s
  exact ⟨fun _ _ _ run => counted.of_ok run, fun n _ _ run => counted.of_error run n rfl⟩

/-- Limits on steps only turn answers into errors. For every simplifier, whatever it remembers, in
all circumstances and for every term, an answer under some limits takes at most the steps that they
allow, and it is the answer under all limits that allow more, where the same is remembered, counted
and built. An answer that takes too many steps under some limits takes too many under all limits
that allow less. -/
theorem simplify_monotone (limits : StepLimits) (context : Context) (t : TermId) (r : Simplifier)
    (s : Store) :
    (∀ u r' after, limits.simplify context t r s = ((.ok u, r'), after) →
      r'.steps ≤ limits.least ∧ ∀ more : StepLimits, limits.least ≤ more.least →
        more.simplify context t r s = ((.ok u, r'.withMaxSteps more.most), after)) ∧
    (∀ n r' after, limits.simplify context t r s = ((.error (.stepsExceeded n), r'), after) →
      n = limits.least ∧ r'.steps = limits.least + 1 ∧
        ∀ fewer : StepLimits, fewer.least ≤ limits.least → ∃ r'' last,
          fewer.simplify context t r s = ((.error (.stepsExceeded fewer.least), r''), last)) := by
  obtain ⟨within, exceeds⟩ := simplify_counts limits context t r s
  constructor
  · intro u r' after run
    refine ⟨within u r' after run, fun more le => ?_⟩
    rcases simplify_agrees le context t r s with exceeded | same
    · rw [run] at exceeded
      cases exceeded
    · rw [same, run]
      rfl
  · intro n r' after run
    obtain ⟨rfl, steps⟩ := exceeds n r' after run
    refine ⟨rfl, steps, fun fewer le => ?_⟩
    rcases simplify_agrees le context t r s with exceeded | same
    · exact ⟨_, _, Prod.ext (Prod.ext exceeded rfl) rfl⟩
    · -- the run under fewer steps fails likewise, and its error names its own limit
      have failed : (fewer.simplify context t r s).1.1 = .error (.stepsExceeded limits.least) := by
        rw [run] at same
        exact (congrArg (fun ending => ending.1.1) same).symm
      have own := (simplify_counts fewer context t r s).2 limits.least _ _
        (Prod.ext (Prod.ext failed rfl) rfl)
      rw [own.1] at failed
      exact ⟨_, _, Prod.ext (Prod.ext failed rfl) rfl⟩

section Case

variable (whole : s.nodes[t]? = some ⟨.not, [Store.trueId], .bool⟩)

include whole

/-- Two steps are enough for the negation of a truth value. -/
theorem simplify_negation :
    ∃ u r' after, simplify ⟨none, 2⟩ .unbounded t {} s = ((.ok u, r'), after) := by
  obtain ⟨inside, node⟩ := Store.node_of_getElem? whole
  have args : s.args t = [Store.trueId] := by rw [Store.args, node]
  have ensured : (simplifyWithin .unbounded 2 t).Ensures {} s (fun _ _ _ => True)
      fun _ _ _ => False := by
    refine simplify_literals inside ?_ (by rw [args]; decide) fun r _ _ => ?_
    · rw [args]
      exact List.forall_mem_singleton.mpr (atomic_of_getElem? s.startsTrue rfl)
    · refine conclude_done ((reduce_not (p := true) whole).imp fun o _ _ answer => ?_)
      exact ⟨_, answer, trivial⟩
  obtain ⟨u, r', after, ran, _⟩ := ensured.exists_ok
  rcases simplifyWithin_agreesWith (k := 2) (Nat.le_refl 2) rfl t {} s with exceeded | same
  · rw [ran] at exceeded
    cases exceeded
  · rw [ran] at same
    exact ⟨u, _, _, same⟩

/-- One step is not. -/
theorem simplify_negation_exceeds : ∃ r' after,
    simplify ⟨none, 1⟩ .unbounded t {} s = ((.error (.stepsExceeded 1), r'), after) := by
  obtain ⟨inside, node⟩ := Store.node_of_getElem? whole
  have args : s.args t = [Store.trueId] := by rw [Store.args, node]
  have nothing (a : TermId) : (({} : Simplifier).withMaxSteps 1).memo[a]? = none :=
    Std.HashMap.getElem?_empty
  have ensured : (simplifyWithin .unbounded 1 t).Ensures (({} : Simplifier).withMaxSteps 1) s
      (fun _ _ _ => False) fun e _ _ => e = .stepsExceeded 1 := by
    apply Attempt.ensures_modify_bind
    refine visit_cases (by simp) ?_ ?_ fun _ _ => ?_
    · intro u _ remembered
      have known := (nothing t).symm.trans remembered
      cases known
    · rintro e _ (⟨rfl, _⟩ | interrupted | outside)
      · rfl
      · exact absurd rfl interrupted
      · exact absurd inside (Nat.not_lt_of_le outside)
    · apply Attempt.ensures_read_bind
      rw [args]
      have taken : (visit .unbounded 1 1 none Store.trueId).Ensures
          { (({} : Simplifier).withMaxSteps 1) with steps := 1, visited := 1 } s
          (fun _ _ _ => False) fun e _ _ => e = .stepsExceeded 1 :=
        visit_exceeds (by simp) (nothing Store.trueId) (Nat.le_refl 1)
      apply Attempt.ensures_bind (Attempt.ensures_mapM_single taken)
      rintro _ _ _ _ ⟨_, _, none⟩
      exact none.elim
  obtain ⟨e, r', after, ran, rfl⟩ := ensured.exists_error
  exact ⟨r', after, ran⟩

end Case

/-- The negation of a truth value takes two steps. -/
theorem simplify_monotone_case : ∃ (s : Store) (t : TermId), s.op t = .not ∧
    (∃ u r' after, simplify ⟨none, 2⟩ .unbounded t {} s = ((.ok u, r'), after) ∧
      r'.steps ≤ 2 ∧ ∀ more : StepLimits, 2 ≤ more.least →
        more.simplify .unbounded t {} s = ((.ok u, r'.withMaxSteps more.most), after)) ∧
    ∃ r' after,
      simplify ⟨none, 1⟩ .unbounded t {} s = ((.error (.stepsExceeded 1), r'), after) ∧
      1 = 1 ∧ r'.steps = 2 ∧ ∀ fewer : StepLimits, fewer.least ≤ 1 → ∃ r'' last,
        fewer.simplify .unbounded t {} s = ((.error (.stepsExceeded fewer.least), r''), last) := by
  have built : (Terms.intern ⟨.not, [Store.trueId], .bool⟩).Ensures .initial
      fun t after => after.nodes[t]? = some ⟨.not, [Store.trueId], .bool⟩ :=
    Terms.intern_getElem? (by decide)
  obtain ⟨s, t, whole⟩ : ∃ (s : Store) (t : TermId),
      s.nodes[t]? = some ⟨.not, [Store.trueId], .bool⟩ := ⟨_, _, built⟩
  obtain ⟨_, node⟩ := Store.node_of_getElem? whole
  obtain ⟨u, r', after, run⟩ := simplify_negation whole
  obtain ⟨r₁, after₁, run₁⟩ := simplify_negation_exceeds whole
  have answered := (simplify_monotone ⟨none, 2⟩ .unbounded t {} s).1 u r' after run
  have exceeded := (simplify_monotone ⟨none, 1⟩ .unbounded t {} s).2 1 r₁ after₁ run₁
  refine ⟨s, t, by rw [Store.op, node], ⟨u, r', after, run, answered⟩, r₁, after₁, run₁, exceeded⟩

end StepLimits
end Rewriting
end Stratagem
