import Stratagem.Proofs.BitBlast.Twin
import Stratagem.Proofs.Rewriting.Twin
import Stratagem.Tactic.Apply

/-!
# Tactics that are used again

A tactic keeps working state between runs: what a simplifier remembers, what a bit-blaster has
encoded, and counts. None of it reaches the next run, whatever the runs before were about and
however they ended: a used tactic does what a new one of the same configuration does, to the last
term it builds. Only tactics that run a part with parameters of its own are left out, since they
may leave the part with other parameters.
-/
namespace Stratagem

open Attempt Rewriting

variable {rules : SimplifierConfig} {x y : Simplifier} {s : Store}

/-- Simplifying an entry of a goal. -/
theorem Simplify.simplifyEntry_twins (context : Context) (g : Goal) (e : Entry)
    (alike : Simplifier.Alike rules x y s) :
    (simplifyEntry context g e).Twins x y s (Simplifier.Alike rules) fun _ _ => True := by
  unfold simplifyEntry
  split
  · refine twins_bind (simplifyWithProof_twins _ _ alike) fun found x y s _ alike _ => ?_
    obtain ⟨f, equation⟩ := found
    dsimp only
    split
    · exact twins_bind (build_twins _ alike) fun _ x y s _ alike _ => twins_pure alike trivial
    · exact twins_pure alike trivial
  · exact twins_bind (simplifyIn_twins _ _ alike) fun _ x y s _ alike _ => twins_pure alike trivial

/-- Simplifying the formula of a slot. -/
theorem Simplify.visit_twins (context : Context) (slot : ℕ) (e : Entry) (g : Goal)
    (x y : Simplifier) (s : Store) (alike : Simplifier.Alike rules x y s) :
    (visit context slot e g).Twins x y s (Simplifier.Alike rules) fun _ _ => True := by
  refine twins_bind (simplifyEntry_twins _ _ _ alike) fun e' x y s _ alike _ => ?_
  have checked (g : Goal) (x y : Simplifier) (s : Store) (alike : Simplifier.Alike rules x y s) : (do
      Attempt.check context
      return g : Rewriting Goal).Twins x y s (Simplifier.Alike rules) fun _ _ => True :=
    twins_bind (twins_check alike) fun _ _ _ _ _ alike _ => twins_pure alike trivial
  split
  · exact checked g x y s alike
  · exact twins_bind (build_twins _ alike) fun g x y s _ alike _ => checked g x y s alike

/-- Simplifying a goal with two simplifiers of one configuration. -/
theorem Simplify.run_twins (context : Context) (g : Goal) (left : x.config = rules)
    (right : y.config = rules) (s : Store) : (run context g).Twins x y s
      (fun x y _ => x.config = rules ∧ y.config = rules) fun _ _ => True := by
  have anew := Simplifier.Alike.reset left right s
  have all : (simplifyAll context g).Twins x.reset y.reset s (Simplifier.Alike rules)
      fun _ _ => True :=
    twins_bind (Goal.visitAll_twins (visit_twins context) g anew) fun g x y s _ alike _ =>
      build_twins _ alike
  have whole : (run context g).Twins x y s (Simplifier.Alike rules) fun _ _ => True := by
    refine twins_modify_bind ?_
    split
    · exact twins_pure anew trivial
    · exact twins_bind all fun _ _ _ _ _ alike _ => twins_pure alike trivial
  exact whole.imp (fun _ _ _ _ alike => ⟨alike.left, alike.right⟩) fun _ _ _ => id

namespace EquationSolver

/-- Replacing a constant in the formula of a slot. -/
theorem replaceIn_twins (context : Context) (slot : ℕ) (equation : Entry) (d : Definition) (i : ℕ)
    (e : Entry) (g : Goal) (x y : Simplifier) (s : Store) (alike : Simplifier.Alike rules x y s) :
    (replaceIn context slot equation d i e g).Twins x y s (Simplifier.Alike rules) fun _ _ => True := by
  unfold replaceIn
  have replaced : (do
      let image ← Attempt.build (Terms.substitute e.formula (.ofList [d]))
      let f ← Rewriting.simplifyIn context image
      let proof ← Attempt.build (substituted e.proof equation.proof f)
      Attempt.build (g.update i ⟨f, proof, DependencySet.join e.deps equation.deps⟩) :
      Rewriting Goal).Twins x y s (Simplifier.Alike rules) fun _ _ => True := by
    refine twins_bind (build_twins _ alike) fun _ x y s _ alike _ => ?_
    refine twins_bind (simplifyIn_twins _ _ alike) fun _ x y s _ alike _ => ?_
    exact twins_bind (build_twins _ alike) fun _ x y s _ alike _ => build_twins _ alike
  refine twins_read_bind ?_
  split
  · exact replaced
  · exact twins_pure alike trivial

/-- Eliminating a constant. -/
theorem eliminate_twins (context : Context) (slot : ℕ) (d : Definition) (g : Goal)
    (alike : Simplifier.Alike rules x y s) :
    (eliminate context slot d g).Twins x y s (Simplifier.Alike rules) fun _ _ => True :=
  twins_bind (build_twins _ alike) fun g _ _ _ _ alike _ =>
    Goal.visitAll_twins (replaceIn_twins context slot _ d) g alike

/-- Eliminating constants as long as a formula defines one. -/
theorem eliminateAll_twins (config : EquationConfig) (context : Context) (rounds : ℕ) (g : Goal)
    (alike : Simplifier.Alike rules x y s) :
    (eliminateAll config context rounds g).Twins x y s (Simplifier.Alike rules) fun _ _ => True := by
  induction rounds generalizing g x y s with
  | zero => exact twins_pure alike trivial
  | succ rounds later =>
    unfold eliminateAll
    split
    · exact twins_pure alike trivial
    refine twins_bind (build_twins _ alike) fun found x y s _ alike _ => ?_
    split
    · exact twins_pure alike trivial
    refine twins_bind (twins_check alike) fun _ x y s _ alike _ => ?_
    refine twins_bind (simplifyIn_twins _ _ alike) fun body x y s _ alike _ => ?_
    refine twins_bind (eliminate_twins _ _ _ _ alike) fun g x y s _ alike _ => ?_
    exact twins_bind (later g alike) fun _ _ _ _ _ alike _ => twins_pure alike trivial

/-- Eliminating all constants that formulas define. -/
theorem solve_twins (config : EquationConfig) (context : Context) (g : Goal)
    (alike : Simplifier.Alike rules x y s) :
    (solve config context g).Twins x y s (Simplifier.Alike rules) fun _ _ => True := by
  refine twins_read_bind ?_
  refine twins_bind (eliminateAll_twins _ _ _ _ alike) fun found x y s _ alike _ => ?_
  exact twins_bind (build_twins _ alike) fun _ _ _ _ _ alike _ => twins_pure alike trivial

/-- Two solvers of one configuration, whose simplifiers have one configuration, give the same
outcome and keep the configurations. -/
theorem run_twin (context : Context) (g : Goal) {a b : EquationSolver}
    (config : b.config = a.config) (left : a.simplifier.config = rules)
    (right : b.simplifier.config = rules) (s : Store) :
    Terms.Twin (a.run context g) (b.run context g) s fun found other _ => found.1 = other.1 ∧
      (found.2.config = a.config ∧ found.2.simplifier.config = rules) ∧
      other.2.config = a.config ∧ other.2.simplifier.config = rules := by
  obtain ⟨choices, x, eliminated⟩ := a
  obtain ⟨_, y, eliminated'⟩ := b
  obtain rfl : _ = choices := config
  refine Terms.twin_bind (solve_twins _ context g (.reset left right s)) ?_
  rintro ⟨outcome, x⟩ ⟨other, y⟩ after _ ⟨same, alike, _⟩
  obtain rfl : outcome = other := same
  cases outcome with
  | ok => exact Terms.twin_pure ⟨rfl, ⟨rfl, alike.left⟩, rfl, alike.right⟩
  | error => exact Terms.twin_pure ⟨rfl, ⟨rfl, alike.left⟩, rfl, alike.right⟩

end EquationSolver

namespace Tactic

open Terms

variable {t u : Tactic} {context : Context} {s : Store}

/-- A tactic that never has a working state. -/
inductive Stateless : Tactic → Prop
  | splitClause (largest : Bool) : Stateless (.splitClause largest)
  | skip : Stateless .skip
  | fail (reason : String) : Stateless (.fail reason)
  | failIfUndecided : Stateless .failIfUndecided
  | failIf (probe : Probe) : Stateless (.failIf probe)
  | custom (name : String) (reply : Goal → Except Error TacticResult) :
    Stateless (.custom name reply)

/-- A tactic no part of which runs with parameters of its own. Constants are eliminated with the
standard simplifier. -/
inductive Plain : Tactic → Prop
  | stateless {t : Tactic} (stateless : Stateless t) : Plain t
  | simplify (name : String) (simplifier : Simplifier) : Plain (.simplify name simplifier)
  | solveEqs {solver : EquationSolver} (standard : solver.simplifier.config = {}) :
    Plain (.solveEqs solver)
  | bitBlast (blaster : Blaster) : Plain (.bitBlast blaster)
  | andThen {first second : Tactic} (left : Plain first) (right : Plain second) :
    Plain (.andThen first second)
  | orElse {alternatives : List Tactic} (each : ∀ t ∈ alternatives, Plain t) :
    Plain (.orElse alternatives)
  | cond (probe : Probe) {yes no : Tactic} (left : Plain yes) (right : Plain no) :
    Plain (.cond probe yes no)
  | iterate {inner : Tactic} (inside : Plain inner) (limit : Option ℕ) :
    Plain (.iterate inner limit)
  | tryFor {inner : Tactic} (inside : Plain inner) (budget : ℕ) : Plain (.tryFor inner budget)

section Copies

/-- There is nothing to drop where there is no working state. -/
theorem Stateless.cleanup_eq (stateless : t.Stateless) : t.cleanup = t := by
  cases stateless <;> rfl

/-- A new tactic is the same where there is no working state. -/
theorem Stateless.fresh_eq (stateless : t.Stateless) : t.fresh = t := by
  cases stateless <;> rfl

/-- Members of a list of tactics are cleaned up one by one. -/
theorem Plain.cleanupAll {alternatives : List Tactic} (each : ∀ t ∈ alternatives, Plain t.cleanup) :
    ∀ t ∈ Tactic.cleanupAll alternatives, Plain t := by
  induction alternatives with
  | nil => nofun
  | cons first rest tail =>
    obtain ⟨here, later⟩ := List.forall_mem_cons.mp each
    exact List.forall_mem_cons.mpr ⟨here, tail later⟩

/-- Dropping the working state leaves a plain tactic plain. -/
theorem Plain.cleanup (plain : t.Plain) : t.cleanup.Plain := by
  induction plain with
  | stateless none => exact none.cleanup_eq.symm ▸ .stateless none
  | simplify name r => exact .simplify name r.reset
  | solveEqs standard => exact .solveEqs standard
  | bitBlast b => exact .bitBlast b.cleanup
  | andThen _ _ left right => exact .andThen left right
  | orElse _ each => exact .orElse (cleanupAll each)
  | cond probe _ _ left right => exact .cond probe left right
  | iterate _ limit inside => exact .iterate inside limit
  | tryFor _ budget inside => exact .tryFor inside budget

/-- Members of a list of tactics are copied one by one. -/
theorem Plain.freshAll {alternatives : List Tactic} (each : ∀ t ∈ alternatives, Plain t.fresh) :
    ∀ t ∈ Tactic.freshAll alternatives, Plain t := by
  induction alternatives with
  | nil => nofun
  | cons first rest tail =>
    obtain ⟨here, later⟩ := List.forall_mem_cons.mp each
    exact List.forall_mem_cons.mpr ⟨here, tail later⟩

/-- A new tactic of a plain one is plain. -/
theorem Plain.fresh (plain : t.Plain) : t.fresh.Plain := by
  induction plain with
  | stateless none => exact none.fresh_eq.symm ▸ .stateless none
  | simplify name r => exact .simplify name r.fresh
  | solveEqs => exact .solveEqs rfl
  | bitBlast b => exact .bitBlast { config := b.config }
  | andThen _ _ left right => exact .andThen left right
  | orElse _ each => exact .orElse (freshAll each)
  | cond probe _ _ left right => exact .cond probe left right
  | iterate _ limit inside => exact .iterate inside limit
  | tryFor _ budget inside => exact .tryFor inside budget

mutual

/-- A new tactic is the same after the working state is dropped. -/
theorem fresh_cleanup (t : Tactic) : t.cleanup.fresh = t.fresh := by
  cases t with
  | simplify | solveEqs | bitBlast | splitClause | skip | fail | failIfUndecided | failIf | custom =>
    rfl
  | andThen first second => simp only [cleanup, fresh, fresh_cleanup first, fresh_cleanup second]
  | orElse alternatives => simp only [cleanup, fresh, freshAll_cleanupAll alternatives]
  | cond probe yes no => simp only [cleanup, fresh, fresh_cleanup yes, fresh_cleanup no]
  | iterate inner | tryFor inner | usingParams inner =>
    simp only [cleanup, fresh, fresh_cleanup inner]

/-- New tactics are the same after the working states are dropped. -/
theorem freshAll_cleanupAll : ∀ alternatives : List Tactic,
    freshAll (cleanupAll alternatives) = freshAll alternatives
  | [] => rfl
  | t :: rest => by
    simp only [cleanupAll, freshAll, fresh_cleanup t, freshAll_cleanupAll rest]

end

mutual

/-- A new tactic of a new tactic is the same. -/
theorem fresh_fresh (t : Tactic) : t.fresh.fresh = t.fresh := by
  cases t with
  | simplify | solveEqs | bitBlast | splitClause | skip | fail | failIfUndecided | failIf | custom =>
    rfl
  | andThen first second => simp only [fresh, fresh_fresh first, fresh_fresh second]
  | orElse alternatives => simp only [fresh, freshAll_freshAll alternatives]
  | cond probe yes no => simp only [fresh, fresh_fresh yes, fresh_fresh no]
  | iterate inner | tryFor inner | usingParams inner => simp only [fresh, fresh_fresh inner]

/-- New tactics of new tactics are the same. -/
theorem freshAll_freshAll : ∀ alternatives : List Tactic,
    freshAll (freshAll alternatives) = freshAll alternatives
  | [] => rfl
  | t :: rest => by simp only [freshAll, fresh_fresh t, freshAll_freshAll rest]

end

end Copies

section Makes

variable {a b x y : Tactic}

/-- A tactic is of the make of another one: it is plain, and new tactics of both are the same. -/
structure Make (t u : Tactic) : Prop where
  /-- The tactic is plain. -/
  plain : u.Plain
  /-- New tactics of both are the same. -/
  same : u.fresh = t.fresh

/-- A plain tactic is of its own make. -/
theorem Plain.make (plain : t.Plain) : t.Make t := ⟨plain, rfl⟩

/-- Tactics of the make of a tactic of some make are of that make. -/
theorem Make.trans {v : Tactic} (first : t.Make u) (second : u.Make v) : t.Make v :=
  ⟨second.plain, second.same.trans first.same⟩

/-- Of two tactics of one make, one is of the make of the other. -/
theorem Make.common (first : t.Make x) (second : t.Make y) : x.Make y :=
  ⟨second.plain, second.same.trans first.same.symm⟩

/-- Dropping the working state does not change the make. -/
theorem Make.cleanup (known : t.Make u) : t.Make u.cleanup :=
  ⟨known.plain.cleanup, (fresh_cleanup u).trans known.same⟩

/-- A new tactic of a plain one is of its make. -/
theorem Plain.make_fresh (plain : t.Plain) : t.Make t.fresh := ⟨plain.fresh, fresh_fresh t⟩

/-- Sequences of tactics of one make each. -/
theorem Make.andThen (first : a.Make x) (second : b.Make y) : (a.andThen b).Make (x.andThen y) :=
  ⟨.andThen first.plain second.plain, by rw [fresh, first.same, second.same, ← fresh]⟩

/-- Case distinctions between tactics of one make each. -/
theorem Make.cond (probe : Probe) (first : a.Make x) (second : b.Make y) :
    (cond probe a b).Make (cond probe x y) :=
  ⟨.cond probe first.plain second.plain, by rw [fresh, first.same, second.same, ← fresh]⟩

/-- Repetitions of tactics of one make. -/
theorem Make.iterate (inner : a.Make x) (limit : Option ℕ) :
    (iterate a limit).Make (iterate x limit) :=
  ⟨.iterate inner.plain limit, by rw [fresh, inner.same, ← fresh]⟩

/-- Time budgets for tactics of one make. -/
theorem Make.tryFor (inner : a.Make x) (budget : ℕ) : (tryFor a budget).Make (tryFor x budget) :=
  ⟨.tryFor inner.plain budget, by rw [fresh, inner.same, ← fresh]⟩

/-- Tactics of one make, one by one. -/
def MakeAll (alternatives others : List Tactic) : Prop := List.Forall₂ Make alternatives others

/-- Choices between tactics of one make each. -/
theorem Make.orElse {alternatives others : List Tactic} (each : MakeAll alternatives others) :
    (orElse alternatives).Make (orElse others) := by
  constructor
  · refine .orElse fun t member => ?_
    obtain ⟨_, _, known⟩ := exists_of_forall₂ each.flip member
    exact known.plain
  · rw [fresh, fresh]
    congr 1
    induction each with
    | nil => rfl
    | cons first _ rest => rw [freshAll, freshAll, first.same, rest]

/-- The make of a tactic without working state is that tactic. -/
theorem Stateless.eq_of_make (stateless : t.Stateless) (known : t.Make u) : u = t := by
  have same := known.same
  cases stateless <;> cases u <;> simp_all [fresh]

/-- What is of the make of a simplification. -/
theorem Make.exists_simplify {name : String} {r : Simplifier}
    (known : (Tactic.simplify name r).Make u) :
    ∃ r' : Simplifier, u = .simplify name r' ∧ r'.config = r.config := by
  have same := known.same
  cases u <;> simp only [fresh, reduceCtorEq, simplify.injEq] at same
  next r' => exact ⟨r', by rw [same.1], (Simplifier.mk.inj same.2).1⟩

/-- What is of the make of an elimination of constants. -/
theorem Make.exists_solveEqs {e : EquationSolver} (known : (Tactic.solveEqs e).Make u) :
    ∃ e' : EquationSolver, u = .solveEqs e' ∧ e'.config = e.config ∧
      e'.simplifier.config = {} := by
  obtain ⟨plain, same⟩ := known
  cases u <;> simp only [fresh, reduceCtorEq, solveEqs.injEq] at same
  next e' =>
    cases plain with
    | stateless none => cases none
    | solveEqs standard => exact ⟨e', rfl, (EquationSolver.mk.inj same).1, standard⟩

/-- What is of the make of a bit-blaster. -/
theorem Make.exists_bitBlast {b : Blaster} (known : (Tactic.bitBlast b).Make u) :
    ∃ b' : Blaster, u = .bitBlast b' ∧ b'.config = b.config := by
  have same := known.same
  cases u <;> simp only [fresh, reduceCtorEq, bitBlast.injEq] at same
  next b' => exact ⟨b', rfl, (Blaster.mk.inj same).1⟩

/-- What is of the make of a sequence. -/
theorem Make.exists_andThen (known : (a.andThen b).Make u) :
    ∃ x y : Tactic, u = x.andThen y ∧ a.Make x ∧ b.Make y := by
  obtain ⟨plain, same⟩ := known
  cases u <;> simp only [fresh, reduceCtorEq, andThen.injEq] at same
  next x y =>
    cases plain with
    | stateless none => cases none
    | andThen left right => exact ⟨x, y, rfl, ⟨left, same.1⟩, ⟨right, same.2⟩⟩

/-- What is of the make of a case distinction. -/
theorem Make.exists_cond {probe : Probe} (known : (Tactic.cond probe a b).Make u) :
    ∃ x y : Tactic, u = .cond probe x y ∧ a.Make x ∧ b.Make y := by
  obtain ⟨plain, same⟩ := known
  cases u <;> simp only [fresh, reduceCtorEq, cond.injEq] at same
  next x y =>
    obtain ⟨rfl, first, second⟩ := same
    cases plain with
    | stateless none => cases none
    | cond _ left right => exact ⟨x, y, rfl, ⟨left, first⟩, ⟨right, second⟩⟩

/-- What is of the make of a repetition. -/
theorem Make.exists_iterate {limit : Option ℕ} (known : (Tactic.iterate a limit).Make u) :
    ∃ x : Tactic, u = .iterate x limit ∧ a.Make x := by
  obtain ⟨plain, same⟩ := known
  cases u <;> simp only [fresh, reduceCtorEq, iterate.injEq] at same
  next x _ =>
    obtain ⟨inner, rfl⟩ := same
    cases plain with
    | stateless none => cases none
    | iterate inside => exact ⟨x, rfl, inside, inner⟩

/-- What is of the make of a tactic with a time budget. -/
theorem Make.exists_tryFor {budget : ℕ} (known : (Tactic.tryFor a budget).Make u) :
    ∃ x : Tactic, u = .tryFor x budget ∧ a.Make x := by
  obtain ⟨plain, same⟩ := known
  cases u <;> simp only [fresh, reduceCtorEq, tryFor.injEq] at same
  next x _ =>
    obtain ⟨inner, rfl⟩ := same
    cases plain with
    | stateless none => cases none
    | tryFor inside => exact ⟨x, rfl, inside, inner⟩

/-- Lists of plain tactics whose copies are the same are of one make, one by one. -/
theorem makeAll_of_freshAll {alternatives others : List Tactic}
    (same : freshAll others = freshAll alternatives) (plain : ∀ t ∈ others, t.Plain) :
    MakeAll alternatives others := by
  induction alternatives generalizing others with
  | nil =>
    cases others with
    | nil => exact .nil
    | cons => cases same
  | cons t rest later =>
    cases others with
    | nil => cases same
    | cons u others =>
      obtain ⟨here, more⟩ := List.cons.inj same
      obtain ⟨first, each⟩ := List.forall_mem_cons.mp plain
      exact .cons ⟨first, here⟩ (later more each)

/-- What is of the make of a choice between alternatives. -/
theorem Make.exists_orElse {alternatives : List Tactic}
    (known : (Tactic.orElse alternatives).Make u) :
    ∃ others, u = .orElse others ∧ MakeAll alternatives others := by
  obtain ⟨plain, same⟩ := known
  cases u <;> simp only [fresh, reduceCtorEq, orElse.injEq] at same
  next others =>
    cases plain with
    | stateless none => cases none
    | orElse each => exact ⟨others, rfl, makeAll_of_freshAll same each⟩

end Makes

section Runs

/-- The runs of a plain tactic and of one of its make have the same outcome and leave tactics of
that make. -/
def Repeats (run : Tactic → Run) : Prop :=
  ∀ t u s, t.Plain → t.Make u → Twin (run t) (run u) s fun found other _ =>
    found.1 = other.1 ∧ t.Make found.2 ∧ t.Make other.2

variable {run : Tactic → Run} {g : Goal} {x y : Tactic}

/-- Two tactics are of the make of a given one. -/
def Akin (t x y : Tactic) (_ : Store) : Prop := t.Make x ∧ t.Make y

/-- A run within an attempt. -/
theorem Repeats.twins (repeats : Repeats run) (akin : t.Akin x y s) :
    (Attempt.ofRun run).Twins x y s t.Akin fun _ _ => True := by
  obtain ⟨left, right⟩ := akin
  refine Twin.imp (repeats x y s left.plain (left.common right)) ?_
  exact fun _ _ _ _ found =>
    ⟨found.1, ⟨left.trans found.2.1, left.trans found.2.2⟩, fun _ _ => trivial⟩

/-- Running a tactic on subgoals until one is satisfied. -/
theorem results_twins {next : Goal → Tactic → Run} (repeats : ∀ g, Repeats (next g))
    (position : ℕ) (goals : List Goal) (akin : t.Akin x y s) :
    (TacticResult.results context (fun g => Attempt.ofRun (next g)) position goals).Twins x y s
      t.Akin fun _ _ => True := by
  induction goals generalizing position x y s with
  | nil => exact twins_pure akin trivial
  | cons goal rest later =>
    unfold TacticResult.results
    refine twins_bind (twins_check akin) fun _ x y s _ akin _ => ?_
    refine twins_bind ((repeats goal).twins akin) fun r x y s _ akin _ => ?_
    split
    · exact twins_pure akin trivial
    · exact twins_bind (later _ akin) fun _ _ _ _ _ akin _ => twins_pure akin trivial

/-- Running a tactic on all subgoals of a result. -/
theorem sequence_twins {next : Goal → Tactic → Run} (repeats : ∀ g, Repeats (next g))
    (first : TacticResult) (akin : t.Akin x y s) :
    (first.sequence context fun g => Attempt.ofRun (next g)).Twins x y s t.Akin
      fun _ _ => True := by
  unfold TacticResult.sequence
  split
  · exact twins_pure akin trivial
  · exact twins_bind ((repeats _).twins akin) fun _ _ _ _ _ akin _ => twins_pure akin trivial
  · refine twins_bind (results_twins repeats 0 _ akin) fun found x y s _ akin _ => ?_
    obtain ⟨results, satisfied⟩ := found
    dsimp only
    split
    · exact twins_pure akin trivial
    · refine twins_bind (twins_build_any (fun _ _ => id) akin) fun _ x y s _ akin _ => ?_
      exact twins_ofExcept akin fun _ _ => trivial

/-- Running the first alternative that does not fail. -/
theorem firstOf_twin (repeats : Repeats run) {alternatives others : List Tactic}
    (plain : ∀ t ∈ alternatives, t.Plain) (each : MakeAll alternatives others) (s : Store) :
    Twin (firstOf run alternatives) (firstOf run others) s fun found other _ =>
      found.1 = other.1 ∧ MakeAll alternatives found.2 ∧ MakeAll alternatives other.2 := by
  induction each generalizing s with
  | nil => exact twin_pure ⟨rfl, .nil, .nil⟩
  | @cons t u rest others here more later =>
    obtain ⟨plain, each⟩ := List.forall_mem_cons.mp plain
    have ran := repeats t u s plain here
    cases more with
    | nil =>
      refine twin_bind ran fun found other after _ result => ?_
      exact twin_pure ⟨result.1, .cons result.2.1 .nil, .cons result.2.2 .nil⟩
    | @cons a b rest others next more =>
      unfold firstOf
      refine twin_bind ran fun found other after _ result => ?_
      obtain ⟨outcome, x⟩ := found
      obtain ⟨_, y⟩ := other
      obtain ⟨rfl, left, right⟩ := result
      have unchanged : MakeAll (a :: rest) (a :: rest) :=
        List.forall₂_same.mpr fun t member => (each t member).make
      have kept : MakeAll (t :: a :: rest) (x :: a :: rest) ∧
          MakeAll (t :: a :: rest) (y :: b :: others) :=
        ⟨.cons left unchanged, .cons right (.cons next more)⟩
      cases outcome with
      | ok r => exact twin_pure ⟨rfl, kept⟩
      | error e =>
        dsimp only
        split
        · refine twin_bind (later each after) fun found other _ _ result => ?_
          exact twin_pure ⟨result.1, .cons left.cleanup result.2.1, .cons right.cleanup result.2.2⟩
        · exact twin_pure ⟨rfl, kept⟩

/-- A run of a tactic without working state leaves it as it is. -/
theorem Stateless.run_ensures (stateless : t.Stateless) (context : Context) (depth : ℕ) (g : Goal)
    (s : Store) : (applyTo context depth t g).Ensures s fun found _ => found.2 = t := by
  cases depth with
  | zero =>
    unfold applyTo
    exact ensures_pure rfl
  | succ depth =>
    unfold applyTo
    cases stateless with
    | splitClause largest => exact ensures_bind_of_all fun found _ _ => ensures_pure rfl
    | skip | fail | custom => exact ensures_pure rfl
    | failIfUndecided =>
      dsimp only
      split <;> exact ensures_pure rfl
    | failIf probe =>
      refine ensures_read_bind ?_
      split <;> exact ensures_pure rfl

section Steps

variable {depth : ℕ} (applied : ∀ context g, Repeats fun t => applyTo context depth t g)
  (iterated : ∀ context limit g, Repeats fun t => iterateTo context depth limit t g)

include applied iterated

/-- One level of the runs of plain tactics. -/
theorem applyTo_repeats (context : Context) (g : Goal) :
    Repeats fun t => applyTo context (depth + 1) t g := by
  intro t u s plain known
  dsimp only
  cases plain with
  | stateless none =>
    obtain rfl := none.eq_of_make known
    have kept := none.run_ensures context (depth + 1) g s
    refine ⟨rfl, rfl, ?_⟩
    rw [kept]
    exact ⟨known, known⟩
  | simplify name r =>
    obtain ⟨r', rfl, config⟩ := known.exists_simplify
    unfold applyTo
    refine twin_bind (Simplify.run_twins context g rfl config s) fun found other _ _ result => ?_
    obtain ⟨same, ⟨left, right⟩, _⟩ := result
    refine twin_pure ⟨same, ⟨.simplify name _, ?_⟩, ⟨.simplify name _, ?_⟩⟩
    · exact congrArg (fun config => Tactic.simplify name { config }) left
    · exact congrArg (fun config => Tactic.simplify name { config }) right
  | @solveEqs e standard =>
    obtain ⟨e', rfl, config, standard'⟩ := known.exists_solveEqs
    unfold applyTo
    refine twin_bind (EquationSolver.run_twin context g config standard standard' s)
      fun found other _ _ result => ?_
    obtain ⟨same, ⟨left, kept⟩, right, kept'⟩ := result
    refine twin_pure ⟨same, ⟨.solveEqs kept, ?_⟩, ⟨.solveEqs kept', ?_⟩⟩
    · exact congrArg (fun config => Tactic.solveEqs { config }) left
    · exact congrArg (fun config => Tactic.solveEqs { config }) right
  | bitBlast b =>
    obtain ⟨b', rfl, config⟩ := known.exists_bitBlast
    unfold applyTo
    refine twin_bind (Blaster.run_twins context g rfl config s) fun found other _ _ result => ?_
    obtain ⟨same, ⟨left, right⟩, _⟩ := result
    refine twin_pure ⟨same, ⟨.bitBlast _, ?_⟩, ⟨.bitBlast _, ?_⟩⟩
    · exact congrArg (fun config => Tactic.bitBlast { config }) left
    · exact congrArg (fun config => Tactic.bitBlast { config }) right
  | andThen left right =>
    obtain ⟨x, y, rfl, first, second⟩ := known.exists_andThen
    unfold applyTo
    refine twin_bind (applied context g _ _ s left first) fun found other after _ result => ?_
    obtain ⟨outcome, a⟩ := found
    obtain ⟨_, x⟩ := other
    obtain ⟨rfl, kept, kept'⟩ := result
    have akin := And.intro right.make second
    cases outcome with
    | error e => exact twin_pure ⟨rfl, kept.andThen akin.1, kept'.andThen akin.2⟩
    | ok r =>
      refine twin_bind (sequence_twins (applied context) r akin) fun found other _ _ result => ?_
      obtain ⟨same, akin, _⟩ := result
      exact twin_pure ⟨same, kept.andThen akin.1, kept'.andThen akin.2⟩
  | orElse each =>
    obtain ⟨others, rfl, same⟩ := known.exists_orElse
    unfold applyTo
    refine twin_bind (firstOf_twin (applied context g) each same s) fun found other _ _ result => ?_
    exact twin_pure ⟨result.1, .orElse result.2.1, .orElse result.2.2⟩
  | cond probe left right =>
    obtain ⟨x, y, rfl, first, second⟩ := known.exists_cond
    unfold applyTo
    refine twin_read_bind ?_
    split
    · refine twin_bind (applied context g _ _ s left first) fun found other _ _ result => ?_
      exact twin_pure ⟨result.1, result.2.1.cond probe right.make, result.2.2.cond probe second⟩
    · refine twin_bind (applied context g _ _ s right second) fun found other _ _ result => ?_
      exact twin_pure ⟨result.1, left.make.cond probe result.2.1, first.cond probe result.2.2⟩
  | iterate inside limit =>
    obtain ⟨x, rfl, inner⟩ := known.exists_iterate
    unfold applyTo
    refine twin_bind (iterated context limit g _ _ s inside inner) fun found other _ _ result => ?_
    exact twin_pure ⟨result.1, result.2.1.iterate limit, result.2.2.iterate limit⟩
  | tryFor inside budget =>
    obtain ⟨x, rfl, inner⟩ := known.exists_tryFor
    unfold applyTo
    refine twin_bind (applied _ g _ _ s inside inner) fun found other _ _ result => ?_
    exact twin_pure ⟨result.1, result.2.1.tryFor budget, result.2.2.tryFor budget⟩

/-- One level of the repetitions of plain tactics. -/
theorem iterateTo_repeats (context : Context) (limit : Option ℕ) (g : Goal) :
    Repeats fun t => iterateTo context (depth + 1) limit t g := by
  intro t u s plain known
  unfold iterateTo
  refine twin_read_bind ?_
  split
  · exact twin_pure ⟨rfl, plain.make, known⟩
  split
  · exact twin_pure ⟨rfl, plain.make, known⟩
  refine twin_bind (applied context g t u s plain known) fun found other after _ result => ?_
  obtain ⟨outcome, a⟩ := found
  obtain ⟨_, b⟩ := other
  obtain ⟨rfl, kept⟩ := result
  cases outcome with
  | error e => exact twin_pure ⟨rfl, kept⟩
  | ok r =>
    dsimp only
    split
    · exact twin_pure ⟨rfl, kept⟩
    · have whole : (r.sequence context fun g => Attempt.ofRun fun t =>
          iterateTo context depth (limit.map (· - 1)) t g).Twins a b after t.Akin fun _ _ => True :=
        sequence_twins (iterated context (limit.map (· - 1))) r kept
      exact Twin.imp whole fun _ _ _ _ result => ⟨result.1, result.2.1⟩

end Steps

/-- Plain tactics of one make have the same runs, and so have their repetitions. -/
theorem apply_repeats (depth : ℕ) :
    (∀ context g, Repeats fun t => applyTo context depth t g) ∧
    ∀ context limit g, Repeats fun t => iterateTo context depth limit t g := by
  induction depth with
  | zero =>
    constructor
    · intro context g t u s plain known
      simp only [applyTo]
      exact twin_pure ⟨rfl, plain.make, known⟩
    · intro context limit g t u s plain known
      simp only [iterateTo]
      exact twin_pure ⟨rfl, plain.make, known⟩
  | succ depth deeper =>
    exact ⟨applyTo_repeats deeper.1 deeper.2, iterateTo_repeats deeper.1 deeper.2⟩

end Runs

/-- What the use of a tactic leaves of it: it is applied, in any circumstances, to any goals over
any stores and however that ends, and it is cleaned up in between. -/
inductive Used (t : Tactic) : Tactic → Prop
  | new : Used t t
  | apply {u : Tactic} (before : Used t u) (context : Context) (g : Goal) (s : Store) :
    Used t ((u.apply context g).run s).1.2
  | cleanup {u : Tactic} (before : Used t u) : Used t u.cleanup

/-- A plain tactic keeps its make, however it is used. -/
theorem Used.make (used : t.Used u) (plain : t.Plain) : t.Make u := by
  induction used with
  | new => exact plain.make
  | apply _ context g s known =>
    have ran := (apply_repeats depthLimit).1 context g _ _ s known.plain known.plain.make
    exact known.trans ran.2.2.1
  | cleanup _ known => exact known.cleanup

/-- Whatever a plain tactic was used for, a further run has the outcome of a run of a new tactic of
its configuration, and leaves the same store; and that new tactic is what it was at the start. -/
theorem apply_of_used (plain : t.Plain) (used : t.Used u) (context : Context) (g : Goal)
    (s : Store) : u.fresh = t.fresh ∧
      ((u.apply context g).run s).1.1 = ((u.fresh.apply context g).run s).1.1 ∧
      ((u.apply context g).run s).2 = ((u.fresh.apply context g).run s).2 := by
  have known := used.make plain
  have ran := (apply_repeats depthLimit).1 context g u u.fresh s known.plain known.plain.make_fresh
  exact ⟨known.same, ran.2.1, ran.1⟩

/-- A simplification and a bit-blaster after a run that was canceled, a run on an inconsistent goal
and a cleanup. -/
theorem apply_of_used_case :
    let t := (simplifyWith {}).andThen (bitBlast {})
    let g : Goal := ⟨[⟨Store.trueId, none, none⟩], true, false, false, false, 0⟩
    let canceled := ((t.apply { canceled := true } g).run .initial).1.2
    let u := ((canceled.apply .unbounded (g.refuted none none)).run .initial).1.2.cleanup
    t.Plain ∧ t.Used u ∧ u.fresh = t.fresh ∧
      ((u.apply .unbounded g).run .initial).1.1 =
        ((u.fresh.apply .unbounded g).run .initial).1.1 ∧
      ((u.apply .unbounded g).run .initial).2 =
        ((u.fresh.apply .unbounded g).run .initial).2 := by
  intro t g canceled u
  have plain : t.Plain := .andThen (.simplify _ _) (.bitBlast _)
  have used : t.Used u := .cleanup (.apply (.apply .new _ g _) _ _ _)
  exact ⟨plain, used, apply_of_used plain used .unbounded g .initial⟩

end Tactic
end Stratagem
