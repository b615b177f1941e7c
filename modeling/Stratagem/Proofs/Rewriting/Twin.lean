import Stratagem.Proofs.Steady.Function
import Stratagem.Proofs.Twin

/-!
# The counts of a simplifier do not show

A simplifier counts visits, rules and what the rules decide. Nothing of that is ever looked at: two
simplifiers with the same configuration, the same memory and the same number of steps do the same,
to the last term they build. A simplifier that starts anew has no memory and no steps, so only its
configuration matters to the tactics that simplify.
-/
namespace Stratagem

open Store (Extends)

variable {config : SimplifierConfig} {x y : Simplifier} {s after : Store} {context : Context}
  {t : TermId}

namespace Simplifier

/-- Two simplifiers of a given configuration differ only in what they count; the results they
remember are in the store. -/
structure Alike (config : SimplifierConfig) (x y : Simplifier) (s : Store) : Prop where
  /-- The configuration of the first one. -/
  left : x.config = config
  /-- The configuration of the second one. -/
  right : y.config = config
  /-- The memory. -/
  memo : x.memo = y.memo
  /-- The steps of the current rewriting. -/
  steps : x.steps = y.steps
  /-- Remembered results are in the store. -/
  within : ∀ t u : TermId, x.memo[t]? = some u → u < s.size

/-- Simplifiers stay alike when the store grows. -/
theorem Alike.mono (alike : Alike config x y s) (grown : s.Extends after) :
    Alike config x y after where
  left := alike.left
  right := alike.right
  memo := alike.memo
  steps := alike.steps
  within t u found := grown.lt_size (alike.within t u found)

/-- Simplifiers of one configuration are alike once they forget their results. -/
theorem Alike.reset (left : x.config = config) (right : y.config = config) (s : Store) :
    Alike config x.reset y.reset s where
  left := left
  right := right
  memo := rfl
  steps := rfl
  within t u found := by simp [Simplifier.reset] at found

/-- A change of the counts leaves simplifiers alike. -/
theorem Alike.congr {x' y' : Simplifier} (alike : Alike config x y s)
    (left : x'.config = x.config) (right : y'.config = y.config) (memo : x'.memo = x.memo)
    (memo' : y'.memo = y.memo) (steps : x'.steps = y'.steps) : Alike config x' y' s where
  left := left.trans alike.left
  right := right.trans alike.right
  memo := (memo.trans alike.memo).trans memo'.symm
  steps := steps
  within t u found := alike.within t u (memo ▸ found)

/-- Remembering one more result. -/
theorem Alike.insert {u : TermId} (alike : Alike config x y s) (inside : u < s.size) :
    Alike config { x with memo := x.memo.insert t u } { y with memo := y.memo.insert t u } s where
  left := alike.left
  right := alike.right
  memo := congrArg (fun memo => memo.insert t u) alike.memo
  steps := alike.steps
  within t' u' found := by
    rw [Std.HashMap.getElem?_insert] at found
    split at found
    · obtain rfl := Option.some.inj found
      exact inside
    · exact alike.within t' u' found

end Simplifier

namespace Rewriting

open Attempt Terms

variable {depth : Option ℕ} {limit : ℕ}

/-- A term is in the store. -/
def Inside (t : TermId) (s : Store) : Prop := t < s.size

/-- A rule for a term in the store gives the same outcome whatever was counted. -/
theorem runRule_twins (alike : Simplifier.Alike config x y s) (inside : t < s.size) :
    (liftM (runRule (reduce t)) : Rewriting Outcome).Twins x y s (Simplifier.Alike config)
      (Outcome.Within .all) := by
  obtain ⟨outcome, after, within, grown, leads, _⟩ := steady_reduce_all inside
  obtain ⟨last, nodes, _, each⟩ := leads s rfl
  obtain ⟨tally, first⟩ := each x.tally
  obtain ⟨tally', second⟩ := each y.tally
  have runs (r : Simplifier) (tally : RuleTally) (same : r.config = config)
      (run : (((reduce t).run config).run r.tally).run s = ((outcome, tally), last)) :
      ((liftM (runRule (reduce t)) : Rewriting Outcome).runFrom r).run s =
        ((.ok outcome, { r with tally }), last) := by
    show ((Except.ok ((((reduce t).run r.config).run r.tally).run s).1.1, { r with
      tally := ((((reduce t).run r.config).run r.tally).run s).1.2 }),
      ((((reduce t).run r.config).run r.tally).run s).2) = _
    rw [same, run]
  have more : s.Extends last := grown.trans (.of_nodes_eq nodes)
  unfold Attempt.Twins Terms.Twin
  rw [runs x tally alike.left first, runs y tally' alike.right second]
  refine ⟨rfl, rfl, (alike.mono more).congr rfl rfl rfl rfl alike.steps, fun found same => ?_⟩
  obtain rfl := Except.ok.inj same
  exact within.mono (.of_nodes_eq nodes)

/-- Counting a step. -/
theorem step_twins (alike : Simplifier.Alike config x y s) : (step context limit).Twins x y s (Simplifier.Alike config)
    fun _ after => after = s := by
  have counted : Simplifier.Alike config { x with steps := x.steps + 1 } { y with steps := y.steps + 1 } s :=
    alike.congr rfl rfl rfl rfl (congrArg (· + 1) alike.steps)
  unfold step
  refine twins_modify_bind (twins_get_bind ?_ ?_)
  · dsimp only
    rw [alike.steps]
  · split
    · exact twins_throw counted
    · exact twins_check counted

/-- Looking for a term. -/
theorem known_twins (alike : Simplifier.Alike config x y s) : (known t).Twins x y s (Simplifier.Alike config)
    fun _ after => t < after.size := by
  unfold known
  refine twins_read_bind ?_
  split
  · exact twins_throw alike
  · next inside => exact twins_pure alike (Nat.lt_of_not_le inside)

/-- What is remembered of a term. -/
theorem remembered_twins (alike : Simplifier.Alike config x y s) :
    (remembered depth t).Twins x y s (Simplifier.Alike config) fun found after =>
      ∀ u, found = some u → u < after.size := by
  unfold remembered
  split
  · refine twins_get_bind ?_ ?_
    · rw [alike.memo]
    · exact twins_pure alike (alike.within t)
  · exact twins_pure alike nofun

/-- Counting a rule that applied. -/
theorem countRule_twins (outcome : Outcome) (alike : Simplifier.Alike config x y s) :
    (countRule outcome).Twins x y s (Simplifier.Alike config) fun _ after => after = s := by
  unfold countRule
  split
  · exact twins_pure alike rfl
  · exact twins_modify (alike.congr rfl rfl rfl rfl alike.steps) rfl

/-- Remembering a result. -/
theorem remember_twins {u : TermId} (alike : Simplifier.Alike config x y s) (inside : u < s.size) :
    (remember depth t u).Twins x y s (Simplifier.Alike config) fun _ after => u < after.size := by
  unfold remember
  split
  · exact twins_modify (alike.insert inside) inside
  · exact twins_pure alike inside

/-- The arguments first, then the rules for the head, and the result again. -/
theorem rewriteWith_twins {work : Option ℕ → TermId → Rewriting TermId}
    (visiting : ∀ depth t x y s, Simplifier.Alike config x y s → (depth = some 0 → t < s.size) →
      (work depth t).Twins x y s (Simplifier.Alike config) Inside)
    (alike : Simplifier.Alike config x y s) (inside : t < s.size) :
    (rewriteWith work depth t).Twins x y s (Simplifier.Alike config) Inside := by
  unfold rewriteWith
  refine twins_read_bind ?_
  have visited : ((s.args t).mapM (work (below depth))).Twins x y s (Simplifier.Alike config)
      fun args after => ∀ u ∈ args, Inside u after := by
    refine twins_mapM ?_ _ alike fun a member x' y' now grown alike => ?_
    · exact fun u before after grown inside => grown.lt_size inside
    · exact visiting _ a x' y' now alike fun _ =>
        grown.lt_size ((Store.lt_of_mem_args member).trans inside)
  refine twins_bind visited fun args x y middle grown alike known => ?_
  have rebuilt : (rebuild t args).Ensures middle Inside := by
    refine ((steady_rebuild (grown.lt_size inside) known).ensures ?_).imp
      fun _ _ _ found => found.1
    intro u after after' same known
    show u < after'.nodes.size
    rwa [same]
  refine twins_build_bind (fun _ more alike => alike.mono more) alike rebuilt
    fun t' second more alike known => ?_
  refine twins_bind (runRule_twins alike known) fun outcome x y third more alike within => ?_
  refine twins_bind (countRule_twins outcome alike) fun _ x y after _ alike same => ?_
  subst after
  cases outcome with
  | failed => exact twins_pure alike (more.lt_size known)
  | done r => exact twins_pure alike within
  | revisit again r => exact visiting _ r _ _ _ alike fun _ => within.wide rfl
  | revisitAll r => exact visiting _ r _ _ _ alike nofun

/-- Visiting a term. -/
theorem visit_twins (context : Context) (limit fuel : ℕ) (depth : Option ℕ) (t : TermId)
    (x y : Simplifier) (s : Store) (alike : Simplifier.Alike config x y s) (inside : depth = some 0 → t < s.size) :
    (visit context limit fuel depth t).Twins x y s (Simplifier.Alike config) Inside := by
  induction fuel generalizing depth t x y s with
  | zero => exact twins_throw alike
  | succ fuel deeper =>
    unfold visit
    split
    · next stop => exact twins_pure alike (inside stop)
    refine twins_modify_bind ?_
    have counted : Simplifier.Alike config { x with visited := x.visited + 1 }
        { y with visited := y.visited + 1 } s := alike.congr rfl rfl rfl rfl alike.steps
    refine twins_bind (remembered_twins counted) fun found x y s _ alike known => ?_
    split
    · next u =>
      refine twins_modify_bind (twins_pure (alike.congr rfl rfl rfl rfl alike.steps) ?_)
      exact known u rfl
    refine twins_bind (step_twins alike) fun _ x y s _ alike _ => ?_
    refine twins_bind (known_twins alike) fun _ x y s _ alike inside => ?_
    refine twins_bind (rewriteWith_twins deeper alike inside) fun u x y s _ alike known => ?_
    refine twins_bind (remember_twins alike known) fun _ x y s _ alike known => ?_
    exact twins_pure alike known

/-- Simplifying a term. -/
theorem simplifyIn_twins (context : Context) (t : TermId) (alike : Simplifier.Alike config x y s) :
    (simplifyIn context t).Twins x y s (Simplifier.Alike config) Inside := by
  have anew : Simplifier.Alike config { x with steps := 0 } { y with steps := 0 } s :=
    alike.congr rfl rfl rfl rfl rfl
  refine twins_get_bind ?_ ?_
  · rw [alike.left, alike.right]
  · exact twins_modify_bind (visit_twins _ _ _ _ _ _ _ _ anew nofun)

/-- Building terms, of which nothing needs to be known. -/
theorem build_twins {α : Type} (work : Terms α) (alike : Simplifier.Alike config x y s) :
    (Attempt.build work : Rewriting α).Twins x y s (Simplifier.Alike config) fun _ _ => True :=
  twins_build_any (fun _ grown alike => alike.mono grown) alike

/-- Simplifying a term, with a proof. -/
theorem simplifyWithProof_twins (context : Context) (t : TermId) (alike : Simplifier.Alike config x y s) :
    (simplifyWithProof context t).Twins x y s (Simplifier.Alike config) fun _ _ => True := by
  refine twins_bind (simplifyIn_twins context t alike) fun u x y s _ alike _ => ?_
  split
  · exact twins_pure alike trivial
  · exact twins_bind (build_twins _ alike) fun _ x y s _ alike _ => twins_pure alike trivial

end Rewriting

end Stratagem
