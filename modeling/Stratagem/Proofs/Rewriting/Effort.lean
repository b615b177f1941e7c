import Stratagem.Proofs.Rewriting.Literal

/-!
# The effort of a rewriting

What a rewriting down to a depth costs: it remembers nothing and takes a number of steps that can
be bounded. If it fails in a run without other bounds, it fails by the limit on the steps, and the
limit is less than what the bound says. The fuel of a visit is no bound of its own: with every level
of the recursion that does work a step is taken, so a visit whose fuel and steps exceed the limit
together fails by the limit.
-/
namespace Stratagem.Rewriting

open Terms Rule

variable {α β : Type} {context : Context} {limit fuel j k : ℕ} {r r' r'' : Simplifier}
  {s : Store} {t : TermId} {e : Error}

/-- A simplifier after at most a number of steps, with nothing new remembered. -/
structure Spent (k : ℕ) (r r' : Simplifier) : Prop where
  /-- What is remembered stays. -/
  memo : r'.memo = r.memo
  /-- The configuration stays. -/
  config : r'.config = r.config
  /-- Steps are only added. -/
  grows : r.steps ≤ r'.steps
  /-- There are not too many. -/
  steps : r'.steps ≤ r.steps + k

namespace Spent

/-- Nothing is spent. -/
theorem refl (r : Simplifier) : Spent 0 r r := ⟨rfl, rfl, Nat.le_refl _, Nat.le_refl _⟩

/-- One spending after the other. -/
theorem trans (first : Spent j r r') (second : Spent k r' r'') : Spent (j + k) r r'' where
  memo := second.memo.trans first.memo
  config := second.config.trans first.config
  grows := Nat.le_trans first.grows second.grows
  steps := by
    have early := first.steps
    have late := second.steps
    omega

/-- More may be spent. -/
theorem mono (known : Spent j r r') (le : j ≤ k) : Spent k r r' :=
  ⟨known.memo, known.config, known.grows, by have steps := known.steps; omega⟩

end Spent

/-- A simplifier after a failure that a number of steps would have avoided, with nothing new
remembered. -/
structure Stopped (context : Context) (limit fuel k : ℕ) (e : Error) (r r' : Simplifier) :
    Prop where
  /-- What is remembered stays. -/
  memo : r'.memo = r.memo
  /-- The configuration stays. -/
  config : r'.config = r.config
  /-- If nothing else interrupts, the steps are exceeded. -/
  limited : context = .unbounded → e = .stepsExceeded limit
  /-- If nothing else interrupts, the limit is too small. -/
  reached : context = .unbounded → limit < r.steps + fuel → limit < r.steps + k

namespace Stopped

/-- A failure after some steps were spent. -/
theorem of_spent (stopped : Stopped context limit fuel k e r' r'') (spent : Spent j r r') :
    Stopped context limit fuel (j + k) e r r'' where
  memo := stopped.memo.trans spent.memo
  config := stopped.config.trans spent.config
  limited := stopped.limited
  reached free enough := by
    have early := spent.grows
    have steps := spent.steps
    have late := stopped.reached free (by omega)
    omega

/-- A failure that fewer steps would have avoided. -/
theorem mono (known : Stopped context limit fuel j e r r') (le : j ≤ k) :
    Stopped context limit fuel k e r r' where
  memo := known.memo
  config := known.config
  limited := known.limited
  reached free enough := by
    have bound := known.reached free enough
    omega

end Stopped

/-- A computation that takes at most a number of steps and ensures a condition on its result. -/
def Brief (context : Context) (limit fuel k : ℕ) (work : Rewriting α) (r : Simplifier) (s : Store)
    (post : α → Store → Prop) : Prop :=
  work.Ensures r s (fun a r' after => Spent k r r' ∧ post a after)
    fun e r' _ => Stopped context limit fuel k e r r'

namespace Brief

variable {post weaker : α → Store → Prop} {final : β → Store → Prop} {work : Rewriting α}

/-- A result alone. -/
theorem pure {a : α} (holds : post a s) :
    Brief context limit fuel 0 (Pure.pure a : Rewriting α) r s post :=
  Attempt.ensures_pure ⟨.refl r, holds⟩

/-- What follows from the condition, with more steps allowed. -/
theorem imp (known : Brief context limit fuel j work r s post) (le : j ≤ k)
    (follows : ∀ a after, s.Extends after → post a after → weaker a after) :
    Brief context limit fuel k work r s weaker :=
  Attempt.Ensures.imp known
    (fun a _ after grown result => ⟨result.1.mono le, follows a after grown result.2⟩)
    fun _ _ _ _ stopped => stopped.mono le

/-- More steps may be allowed. -/
theorem mono (known : Brief context limit fuel j work r s post) (le : j ≤ k) :
    Brief context limit fuel k work r s post := known.imp le fun _ _ _ holds => holds

/-- A computation and then another one on its result. -/
theorem bind {next : α → Rewriting β} (first : Brief context limit fuel j work r s post)
    (second : ∀ a r' after, s.Extends after → r'.config = r.config → post a after →
      Brief context limit fuel k (next a) r' after final) :
    Brief context limit fuel (j + k) (work >>= next) r s final := by
  have early : work.Ensures r s (fun a r' after => Spent j r r' ∧ post a after)
      fun e r' _ => Stopped context limit fuel (j + k) e r r' :=
    Attempt.Ensures.imp first (fun _ _ _ _ result => result) fun _ _ _ _ stopped =>
      stopped.mono (Nat.le_add_right j k)
  apply Attempt.ensures_bind early
  intro a r' after grown result
  exact Attempt.Ensures.imp (second a r' after grown result.1.config result.2)
    (fun b r'' last _ found => ⟨result.1.trans found.1, found.2⟩)
    fun _ _ _ _ stopped => stopped.of_spent result.1

/-- Building terms and then a computation with the result. -/
theorem build_bind {build : Terms α} {next : α → Rewriting β} (built : build.Ensures s post)
    (rest : ∀ a after, s.Extends after → post a after →
      Brief context limit fuel k (next a) r after final) :
    Brief context limit fuel k ((liftM build : Rewriting α) >>= next) r s final :=
  Attempt.ensures_build_bind built rest

/-- A computation on every member of a list, each with its own number of steps. -/
theorem mapM {visit : α → Rewriting β} {related : Store → α → β → Prop} {cost : α → ℕ}
    (lasting : ∀ a b before after, before.Extends after → related before a b → related after a b) :
    ∀ (members : List α) {r : Simplifier} {s : Store},
      (∀ a ∈ members, ∀ r' now, s.Extends now → r'.config = r.config →
        Brief context limit fuel (cost a) (visit a) r' now fun b after => related after a b) →
      Brief context limit fuel (members.map cost).sum (members.mapM visit) r s
        fun results after => List.Forall₂ (related after) members results
  | [], r, s, _ => Brief.pure .nil
  | a :: rest, r, s, each => by
    rw [List.mapM_cons, List.map_cons, List.sum_cons]
    apply (each a (List.mem_cons_self ..) r s (.refl s) rfl).bind
    intro b r' middle grown config found
    have later : ∀ a ∈ rest, ∀ r'' now, middle.Extends now → r''.config = r'.config →
        Brief context limit fuel (cost a) (visit a) r'' now fun b after => related after a b :=
      fun a member r'' now more same =>
        each a (List.mem_cons_of_mem _ member) r'' now (grown.trans more) (same.trans config)
    rw [← Nat.add_zero (rest.map cost).sum]
    apply (mapM lasting rest later).bind
    intro results _ last more _ others
    exact Brief.pure (.cons (lasting a b middle last more found) others)

/-- A computation on two terms, one after the other. -/
theorem mapM_pair {visit : α → Rewriting β} {a b : α} {early : β → Store → Prop}
    {late : List β → Store → Prop} (first : Brief context limit fuel j (visit a) r s early)
    (second : ∀ u r' now, s.Extends now → r'.config = r.config → early u now →
      Brief context limit fuel k (visit b) r' now fun w after => late [u, w] after) :
    Brief context limit fuel (j + k) ([a, b].mapM visit) r s late := by
  simp only [List.mapM_cons, List.mapM_nil, bind_assoc, pure_bind]
  apply first.bind
  intro u r' now grown config known
  rw [← Nat.add_zero k]
  apply (second u r' now grown config known).bind
  intro w r'' after _ _ known
  exact Brief.pure known

end Brief

section Visits

variable {post : TermId → Store → Prop}

/-- Rules that look at a term, and then what becomes of it: the rules are done, or their result is
visited again down to a depth. -/
theorem brief_conclude (ruled : (reduce t).Ensures r.config s fun o after =>
      (o = .failed ∧ post t after) ∨ (∃ u, o = .done u ∧ post u after) ∨
      ∃ depth u, o = .revisit depth u ∧ ∀ r', r'.config = r.config →
        Brief context limit fuel k (visit context limit fuel (some depth) u) r' after post) :
    Brief context limit fuel k (conclude (visit context limit fuel) t) r s post := by
  apply ensures_runRule_bind ruled
  intro o tally last _ outcome
  have idle : Spent k r { r with tally } := ⟨rfl, rfl, Nat.le_refl _, Nat.le_add_right _ _⟩
  have counted : Spent k r { r with tally, rewritten := r.rewritten + 1 } :=
    ⟨rfl, rfl, Nat.le_refl _, Nat.le_add_right _ _⟩
  rcases outcome with ⟨rfl, holds⟩ | ⟨u, rfl, holds⟩ | ⟨depth, u, rfl, again⟩
  · exact Attempt.ensures_pure_bind (Attempt.ensures_pure ⟨idle, holds⟩)
  · exact Attempt.ensures_modify_bind (Attempt.ensures_pure ⟨counted, holds⟩)
  · apply Attempt.ensures_modify_bind
    have visited := again { r with tally, rewritten := r.rewritten + 1 } rfl
    exact Attempt.Ensures.imp visited
      (fun _ _ _ _ result => ⟨⟨result.1.memo, result.1.config, result.1.grows, result.1.steps⟩,
        result.2⟩)
      fun _ _ _ _ stopped => ⟨stopped.memo, stopped.config, stopped.limited, stopped.reached⟩

/-- A visit looks up what is remembered; of another term it takes a step, which may fail, and if the
term is in the store it rewrites it. -/
theorem visit_cases {depth : Option ℕ} {good : TermId → Simplifier → Store → Prop}
    {bad : Error → Simplifier → Store → Prop} (deep : depth ≠ some 0)
    (remembers : ∀ u, depth = none → r.memo[t]? = some u →
      good u { r with visited := r.visited + 1, hits := r.hits + 1 } s)
    (fails : ∀ e, (depth = none → r.memo[t]? = none) →
      (e = .stepsExceeded limit ∧ limit < r.steps + 1) ∨ context ≠ .unbounded ∨ s.size ≤ t →
      bad e { r with visited := r.visited + 1, steps := r.steps + 1 } s)
    (rewrites : (depth = none → r.memo[t]? = none) → t < s.size →
      (rewriteWith (visit context limit fuel) depth t).Ensures
        { r with visited := r.visited + 1, steps := r.steps + 1 } s
        (fun u r' after => good u (noted depth t u r') after) bad) :
    (visit context limit (fuel + 1) depth t).Ensures r s good bad := by
  unfold visit
  rw [if_neg deep]
  apply Attempt.ensures_modify_bind
  have looked : (remembered depth t).Ensures { r with visited := r.visited + 1 } s
      (fun found r' after => r' = { r with visited := r.visited + 1 } ∧ after = s ∧
        (found = none → depth = none → r.memo[t]? = none) ∧
        ∀ u, found = some u → depth = none ∧ r.memo[t]? = some u) bad := by
    unfold remembered
    split
    · next complete =>
      exact ⟨rfl, rfl, fun new _ => new, fun u old => ⟨Option.isNone_iff_eq_none.mp complete, old⟩⟩
    · next partially =>
      exact ⟨rfl, rfl, fun _ complete => absurd (by simp [complete]) partially, (by simp)⟩
  apply Attempt.ensures_bind looked
  rintro found _ s _ ⟨rfl, rfl, new, old⟩
  cases found with
  | some u =>
    obtain ⟨complete, old⟩ := old u rfl
    exact Attempt.ensures_modify_bind (Attempt.ensures_pure (remembers u complete old))
  | none =>
    have new := new rfl
    have stepped : (step context limit).Ensures { r with visited := r.visited + 1 } s
        (fun _ r' after => r' = { r with visited := r.visited + 1, steps := r.steps + 1 } ∧
          after = s) bad := by
      unfold step
      apply Attempt.ensures_modify_bind
      apply Attempt.ensures_get_bind
      split
      · next exceeded => exact Attempt.ensures_throw (fails _ new (.inl ⟨rfl, exceeded⟩))
      · apply Attempt.ensures_read_bind
        cases checked : context.check s with
        | ok => exact Attempt.ensures_pure ⟨rfl, rfl⟩
        | error =>
          apply Attempt.ensures_throw
          refine fails _ new (.inr (.inl ?_))
          rintro rfl
          cases checked
    apply Attempt.ensures_bind stepped
    rintro _ _ s _ ⟨rfl, rfl⟩
    have found : (known t).Ensures { r with visited := r.visited + 1, steps := r.steps + 1 } s
        (fun _ r' after => r' = { r with visited := r.visited + 1, steps := r.steps + 1 } ∧
          after = s ∧ t < s.size) bad := by
      unfold known
      apply Attempt.ensures_read_bind
      split
      · next outside => exact Attempt.ensures_throw (fails _ new (.inr (.inr outside)))
      · next inside => exact Attempt.ensures_pure ⟨rfl, rfl, Nat.lt_of_not_le inside⟩
    apply Attempt.ensures_bind found
    rintro _ _ s _ ⟨rfl, rfl, inside⟩
    apply Attempt.ensures_bind (rewrites new inside)
    intro u r' after _ result
    unfold remember
    unfold noted at result
    split
    · next complete =>
      rw [if_pos complete] at result
      exact Attempt.ensures_modify_bind (Attempt.ensures_pure result)
    · next partially =>
      rw [if_neg partially] at result
      exact Attempt.ensures_pure_bind (Attempt.ensures_pure result)

/-- Nothing is done at depth zero. -/
theorem brief_visit_zero (t : TermId) :
    Brief context limit fuel 0 (visit context limit fuel (some 0) t) r s
      fun u after => u = t ∧ after = s := by
  cases fuel with
  | zero => exact Attempt.ensures_throw ⟨rfl, rfl, fun _ => rfl, fun _ enough => enough⟩
  | succ fuel => exact Attempt.ensures_pure ⟨.refl r, rfl, rfl⟩

/-- A visit down to a depth takes one step more than rewriting the term. -/
theorem brief_visit {depth : ℕ} (inside : t < s.size)
    (rewritten : ∀ fuel r', r'.config = r.config →
      Brief context limit fuel k (rewriteWith (visit context limit fuel) (some (depth + 1)) t) r' s
        post) :
    Brief context limit fuel (k + 1) (visit context limit fuel (some (depth + 1)) t) r s post := by
  cases fuel with
  | zero => exact Attempt.ensures_throw ⟨rfl, rfl, fun _ => rfl, fun _ enough => by omega⟩
  | succ fuel =>
    have deep : some (depth + 1) ≠ some 0 := by simp
    refine visit_cases deep (fun u complete => nomatch complete) ?_ fun _ _ => ?_
    · rintro e _ (⟨rfl, exceeded⟩ | bounded | outside)
      · exact ⟨rfl, rfl, fun _ => rfl, fun _ _ => by omega⟩
      · exact ⟨rfl, rfl, fun free => absurd free bounded, fun free => absurd free bounded⟩
      · exact absurd outside (Nat.not_le_of_lt inside)
    apply Attempt.Ensures.imp
      (rewritten fuel { r with visited := r.visited + 1, steps := r.steps + 1 } rfl)
    · intro u r' after _ result
      have grows : r.steps + 1 ≤ r'.steps := result.1.grows
      have steps : r'.steps ≤ r.steps + 1 + k := result.1.steps
      have spent : Spent (k + 1) r r' := ⟨result.1.memo, result.1.config, by omega, by omega⟩
      exact ⟨spent, result.2⟩
    · intro e r' _ _ stopped
      refine ⟨stopped.memo, stopped.config, stopped.limited, fun free enough => ?_⟩
      have bound : limit < r.steps + 1 + k := stopped.reached free (by dsimp only; omega)
      omega

/-- Rewriting a term down to a depth: the arguments are visited, and then the rules look at the term
with the results in the place of its arguments. -/
theorem brief_rewriteWith {depth : ℕ} {found : List TermId → Store → Prop}
    (visited : Brief context limit fuel j
      ((s.args t).mapM (visit context limit fuel (some depth))) r s found)
    (concluded : ∀ args r' now, s.Extends now → r'.config = r.config → found args now →
      Brief context limit fuel k (do
        let t' ← (rebuild t args : Terms TermId)
        conclude (visit context limit fuel) t') r' now post) :
    Brief context limit fuel (j + k)
      (rewriteWith (visit context limit fuel) (some (depth + 1)) t) r s post := by
  apply Attempt.ensures_read_bind
  apply visited.bind
  intro args r' now grown config found
  exact concluded args r' now grown config found

/-- Rewriting a term at depth one leaves its arguments alone. -/
theorem brief_rewriteWith_one
    (concluded : ∀ r', r'.config = r.config →
      Brief context limit fuel k (conclude (visit context limit fuel) t) r' s post) :
    Brief context limit fuel k (rewriteWith (visit context limit fuel) (some 1) t) r s post := by
  have left : ∀ (members : List TermId) (r : Simplifier), Brief context limit fuel 0
      (members.mapM (visit context limit fuel (some 0))) r s
      fun args after => args = members ∧ after = s := by
    intro members
    induction members with
    | nil => exact fun r => Brief.pure ⟨rfl, rfl⟩
    | cons a rest tail =>
      intro r
      rw [List.mapM_cons, ← Nat.zero_add 0]
      apply (brief_visit_zero a).bind
      rintro a r' s _ _ ⟨rfl, rfl⟩
      rw [← Nat.zero_add 0]
      apply (tail r').bind
      rintro rest r'' s _ _ ⟨rfl, rfl⟩
      exact Brief.pure ⟨rfl, rfl⟩
  apply Attempt.ensures_read_bind
  rw [← Nat.zero_add k]
  apply (left (s.args t) r).bind
  rintro _ r' s _ config ⟨rfl, rfl⟩
  apply Brief.build_bind (rebuild_same rfl)
  rintro t s _ ⟨rfl, rfl⟩
  exact concluded r' config

end Visits

end Stratagem.Rewriting
