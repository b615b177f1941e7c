import Stratagem.Proofs.Reasoning
import Stratagem.Tactic.Apply

/-!
# Promises about runs of tactics

What the results of all runs have in common is proved once: if the basic tactics keep a promise and
the ways to put results together keep it, every run of every tactic built from them keeps it. A
run may change the working state and the parameters of a tactic, but not what it is built from.
-/
namespace Stratagem

open Store (Extends)

namespace Tactic

/-- A tactic that is built from the basic ones, from bit-blasting only if that is allowed, and from
no functions of its own. -/
inductive Built (blasting : Prop) : Tactic → Prop
  | simplify (name : String) (simplifier : Simplifier) : Built blasting (.simplify name simplifier)
  | solveEqs (solver : EquationSolver) : Built blasting (.solveEqs solver)
  | splitClause (largest : Bool) : Built blasting (.splitClause largest)
  | bitBlast (allowed : blasting) (blaster : Blaster) : Built blasting (.bitBlast blaster)
  | skip : Built blasting .skip
  | fail (reason : String) : Built blasting (.fail reason)
  | failIfUndecided : Built blasting .failIfUndecided
  | failIf (probe : Probe) : Built blasting (.failIf probe)
  | andThen {first second : Tactic} (left : Built blasting first) (right : Built blasting second) :
    Built blasting (.andThen first second)
  | orElse {alternatives : List Tactic} (each : ∀ t ∈ alternatives, Built blasting t) :
    Built blasting (.orElse alternatives)
  | cond (probe : Probe) {yes no : Tactic} (left : Built blasting yes)
    (right : Built blasting no) : Built blasting (.cond probe yes no)
  | iterate {inner : Tactic} (inside : Built blasting inner) (limit : Option ℕ) :
    Built blasting (.iterate inner limit)
  | tryFor {inner : Tactic} (inside : Built blasting inner) (budget : ℕ) :
    Built blasting (.tryFor inner budget)
  | usingParams {inner : Tactic} (inside : Built blasting inner) (params : Params) :
    Built blasting (.usingParams inner params)

namespace Built

variable {blasting : Prop} {t : Tactic}

/-- Members of a list of tactics are cleaned up one by one. -/
theorem cleanupAll {alternatives : List Tactic}
    (each : ∀ t ∈ alternatives, Built blasting t.cleanup) :
    ∀ t ∈ Tactic.cleanupAll alternatives, Built blasting t := by
  induction alternatives with
  | nil => nofun
  | cons first rest tail =>
    obtain ⟨here, later⟩ := List.forall_mem_cons.mp each
    exact List.forall_mem_cons.mpr ⟨here, tail later⟩

/-- Dropping the working state does not change what a tactic is built from. -/
theorem cleanup (built : Built blasting t) : Built blasting t.cleanup := by
  induction built with
  | simplify | solveEqs | splitClause | skip | fail | failIfUndecided | failIf => constructor
  | bitBlast allowed => exact .bitBlast allowed _
  | andThen _ _ left right => exact .andThen left right
  | orElse _ each => exact .orElse (cleanupAll each)
  | cond probe _ _ left right => exact .cond probe left right
  | iterate _ limit inside => exact .iterate inside limit
  | tryFor _ budget inside => exact .tryFor inside budget
  | usingParams _ params inside => exact .usingParams inside params

variable {p : Params}

/-- Members of a list of tactics get parameters one by one. -/
theorem updateAll {alternatives : List Tactic} (each : ∀ t ∈ alternatives, Built blasting t)
    (changed : ∀ t ∈ alternatives, Built blasting (t.update p).2) :
    ∀ t ∈ (Tactic.updateAll p alternatives).2, Built blasting t := by
  induction alternatives with
  | nil => nofun
  | cons first rest tail =>
    obtain ⟨here, later⟩ := List.forall_mem_cons.mp changed
    obtain ⟨_, unchanged⟩ := List.forall_mem_cons.mp each
    unfold Tactic.updateAll
    split
    · next outcome =>
      rw [outcome] at here
      exact List.forall_mem_cons.mpr ⟨here, tail unchanged later⟩
    · next outcome =>
      rw [outcome] at here
      exact List.forall_mem_cons.mpr ⟨here, unchanged⟩

/-- Parameters do not change what a tactic is built from. -/
theorem update (built : Built blasting t) : Built blasting (t.update p).2 := by
  induction built with
  | skip | fail | failIfUndecided | failIf => constructor
  | simplify | solveEqs =>
    unfold Tactic.update
    constructor
  | splitClause largest =>
    unfold Tactic.update
    split <;> constructor
  | bitBlast allowed =>
    unfold Tactic.update
    exact .bitBlast allowed _
  | andThen _ same left right =>
    unfold Tactic.update
    split
    · next outcome =>
      rw [outcome] at left
      exact .andThen left right
    · next outcome =>
      rw [outcome] at left
      exact .andThen left same
  | orElse same each =>
    unfold Tactic.update
    exact .orElse (updateAll same each)
  | cond probe _ same left right =>
    unfold Tactic.update
    split
    · next outcome =>
      rw [outcome] at left
      exact .cond probe left right
    · next outcome =>
      rw [outcome] at left
      exact .cond probe left same
  | iterate _ limit inside =>
    unfold Tactic.update
    exact .iterate inside limit
  | tryFor _ budget inside =>
    unfold Tactic.update
    exact .tryFor inside budget
  | usingParams _ params inside =>
    unfold Tactic.update
    exact .usingParams inside params

end Built

end Tactic

/-- A promise about the results of tactics: what holds of goals they run on, what holds of their
results, and how results are put together. -/
structure Promise where
  /-- What holds of the goals. -/
  Pre : Goal → Store → Prop
  /-- What holds of the results. -/
  Post : Goal → TacticResult → Store → Prop
  /-- What holds of a goal lasts while the store grows. -/
  pre_mono : ∀ {g s after}, Pre g s → s.Extends after → Pre g after
  /-- What holds of a result lasts while the store grows. -/
  post_mono : ∀ {g r s after}, Post g r s → s.Extends after → Post g r after
  /-- A goal that is left alone. -/
  keep : ∀ {g s}, Pre g s → Post g (.single g) s
  /-- What holds of the subgoals of a result. -/
  subgoals : ∀ {g r s}, Post g r s → ∀ g' ∈ r.goals, Pre g' s
  /-- A result with one subgoal, and one on that. -/
  after : ∀ {g first g' r s}, Post g first s → first.goals = [g'] → Post g' r s →
    Post g (first.after r) s
  /-- A result with several subgoals, of which one is satisfied. -/
  satisfiedAt : ∀ {g first done rest g' earlier r final s}, Post g first s →
    first.goals = done ++ g' :: rest → List.Forall₂ (fun g r => Post g r s) done earlier →
    Post g' r s → r.satisfied? g' = some final →
    Post g (first.satisfiedAt (earlier ++ [r]) done.length r.models final) s
  /-- A result with several subgoals, and results on all of them, none of which is satisfied. -/
  afterAll : ∀ {g first results s}, Post g first s → 1 < first.goals.length →
    List.Forall₂ (fun g r => Post g r s ∧ r.satisfied? g = none) first.goals results →
    (first.afterAll results).Ensures s fun outcome after => ∀ r, outcome = .ok r → Post g r after

/-- Running a tactic on subgoals until one is satisfied. What holds of the goals and of the results
lasts while the store grows. -/
theorem TacticResult.results_ensures {σ : Type} {context : Context} {s : Store}
    {next : Goal → Attempt σ TacticResult} {Q : σ → Prop} {bad : Error → σ → Store → Prop}
    (Pre : Goal → Store → Prop) (Post : Goal → TacticResult → Store → Prop)
    (pre_mono : ∀ {g s after}, Pre g s → s.Extends after → Pre g after)
    (post_mono : ∀ {g r s after}, Post g r s → s.Extends after → Post g r after)
    (checked : ∀ state now, Q state → (Attempt.check context : Attempt σ Unit).Ensures state now
      (fun _ state' after => state' = state ∧ after = now) bad)
    (each : ∀ g now state, s.Extends now → Pre g now → Q state → (next g).Ensures state now
      (fun r state' after => Post g r after ∧ Q state') bad)
    (position : ℕ) {goals : List Goal} (ready : ∀ g ∈ goals, Pre g s) {state : σ}
    (holds : Q state) :
    (TacticResult.results context next position goals).Ensures state s (fun found state' after =>
      Q state' ∧ ((found.2 = none ∧
        List.Forall₂ (fun g r => Post g r after ∧ r.satisfied? g = none) goals found.1) ∨
      ∃ done g' rest earlier r final, goals = done ++ g' :: rest ∧
        List.Forall₂ (fun g r => Post g r after) done earlier ∧ Post g' r after ∧
        r.satisfied? g' = some final ∧
        found = (earlier ++ [r], some (position + done.length, r.models, final)))) bad := by
  induction goals generalizing s position state with
  | nil => exact Attempt.ensures_pure ⟨holds, .inl ⟨rfl, .nil⟩⟩
  | cons goal rest tail =>
    obtain ⟨here, later⟩ := List.forall_mem_cons.mp ready
    unfold TacticResult.results
    apply Attempt.ensures_bind (checked state s holds)
    rintro _ _ s _ ⟨rfl, rfl⟩
    apply Attempt.ensures_bind (each goal s _ (.refl s) here holds)
    rintro r state middle grown ⟨post, holds⟩
    split
    · next final satisfied =>
      exact Attempt.ensures_pure
        ⟨holds, .inr ⟨[], goal, rest, [], r, final, rfl, .nil, post, satisfied, rfl⟩⟩
    · next undecided =>
      apply Attempt.ensures_bind (tail (fun g now state more => each g now state (grown.trans more))
        (position + 1) (fun g member => pre_mono (later g member) grown) holds)
      rintro ⟨others, found⟩ state last more ⟨holds, outcome⟩
      have post := post_mono post more
      rcases outcome with ⟨rfl, all⟩ | ⟨done, g', rest, earlier, r', final, rfl, all, last, sat, same⟩
      · exact Attempt.ensures_pure ⟨holds, .inl ⟨rfl, .cons ⟨post, undecided⟩ all⟩⟩
      · obtain ⟨rfl, rfl⟩ := Prod.mk.inj same
        refine Attempt.ensures_pure ⟨holds, .inr ⟨goal :: done, g', rest, r :: earlier, r', final,
          rfl, .cons post all, last, sat, ?_⟩⟩
        rw [List.length_cons, Nat.add_right_comm, Nat.add_assoc, List.cons_append]

namespace Promise

open Attempt

section Sequences

variable {σ : Type} {Q : σ → Prop} {P : Promise} {context : Context} {s : Store} {g : Goal}
  {first : TacticResult} {next : Goal → Attempt σ TacticResult}

/-- A run on a goal keeps a promise, and a property of the state. -/
def Keeps (P : Promise) (Q : σ → Prop) (work : Attempt σ TacticResult) (g : Goal) (s : Store) :
    Prop :=
  ∀ state, Q state → work.Ensures state s (fun r state' after => P.Post g r after ∧ Q state')
    fun _ state' _ => Q state'

/-- Checking the circumstances changes nothing. -/
theorem check_keeps {state : σ} (holds : Q state) :
    (Attempt.check context : Attempt σ Unit).Ensures state s
      (fun _ state' after => state' = state ∧ after = s) fun _ state' _ => Q state' := by
  apply ensures_read_bind
  cases context.check s with
  | ok => exact ensures_pure ⟨rfl, rfl⟩
  | error => exact ensures_throw holds

/-- Running a tactic on all subgoals of a result. -/
theorem sequence_keeps (known : P.Post g first s)
    (kept : ∀ g now, s.Extends now → P.Pre g now → P.Keeps Q (next g) g now) :
    P.Keeps Q (first.sequence context next) g s := by
  intro state holds
  unfold TacticResult.sequence
  have ready := P.subgoals known
  split
  · exact ensures_pure ⟨known, holds⟩
  · next goal only =>
    have here : P.Pre goal s := ready goal (by rw [only]; exact List.mem_singleton_self goal)
    apply ensures_bind (kept goal s (.refl s) here state holds)
    rintro r state after grown ⟨post, holds⟩
    exact ensures_pure ⟨P.after (P.post_mono known grown) only post, holds⟩
  · next none one =>
    have several : 1 < first.goals.length := by
      rcases shape : first.goals with _ | ⟨goal, _ | ⟨_, _⟩⟩
      · exact absurd shape none
      · exact absurd shape (one goal)
      · simp
    apply ensures_bind (TacticResult.results_ensures P.Pre P.Post P.pre_mono P.post_mono
      (fun _ _ => check_keeps)
      (fun g now state grown pre => kept g now grown pre state) 0 ready holds)
    rintro ⟨results, satisfied⟩ state after grown ⟨holds, outcome⟩
    have known := P.post_mono known grown
    rcases outcome with ⟨rfl, all⟩ | ⟨done, g', rest, earlier, r, final, shape, all, post, sat, same⟩
    · apply ensures_build_bind (P.afterAll known several all)
      intro outcome last _ post
      cases outcome with
      | ok r => exact ensures_pure ⟨post r rfl, holds⟩
      | error e => exact ensures_throw holds
    · obtain ⟨rfl, rfl⟩ := Prod.mk.inj same
      have result := P.satisfiedAt known shape all post sat
      rw [← Nat.zero_add done.length] at result
      exact ensures_pure ⟨result, holds⟩

end Sequences

/-- The basic tactics keep a promise. -/
structure Basics (P : Promise) (blasting : Prop) : Prop where
  /-- Simplification. -/
  simplify : ∀ {context g s}, P.Pre g s → P.Keeps (fun _ => True) (Simplify.run context g) g s
  /-- Elimination of defined constants. -/
  solveEqs : ∀ {context g s} (solver : EquationSolver), P.Pre g s →
    (solver.run context g).Ensures s fun found after => ∀ r, found.1 = .ok r → P.Post g r after
  /-- Case splits. -/
  splitClause : ∀ {context g s} (largest : Bool), P.Pre g s →
    P.Keeps (fun _ => True) (CaseSplit.run largest context g) g s
  /-- Bit-blasting. -/
  bitBlast : blasting → ∀ {context g s}, P.Pre g s →
    P.Keeps (fun _ => True) (Blaster.run context g) g s

section Runs

open Tactic

variable {P : Promise} {blasting : Prop} {s : Store} {g : Goal}

/-- What a run of a tactic leaves: a tactic of the same kind, and a result that keeps a promise if
there is one. -/
def Meets (P : Promise) (blasting : Prop) (g : Goal)
    (found : Except Error TacticResult × Tactic) (s : Store) : Prop :=
  Built blasting found.2 ∧ ∀ r, found.1 = .ok r → P.Post g r s

/-- A run that keeps a promise, by its result and its state. -/
theorem meets_of_keeps {σ : Type} {Q : σ → Prop} {work : Attempt σ TacticResult} {state : σ}
    (kept : P.Keeps Q work g s) (holds : Q state) : (work.runFrom state).Ensures s
      fun found after => Q found.2 ∧ ∀ r, found.1 = .ok r → P.Post g r after := by
  have ensured := kept state holds
  unfold Attempt.Ensures at ensured
  apply ensured.imp
  rintro ⟨outcome, state'⟩ after _ result
  cases outcome with
  | ok r =>
    refine ⟨result.2, fun r' same => ?_⟩
    obtain rfl := Except.ok.inj same
    exact result.1
  | error e => exact ⟨result, nofun⟩

/-- A run that leaves tactics of a kind keeps a promise from state to state. -/
theorem keeps_of_meets {run : Tactic → Tactic.Run}
    (meets : ∀ t, Built blasting t → (run t).Ensures s (P.Meets blasting g)) :
    P.Keeps (Built blasting) (Attempt.ofRun run) g s := by
  intro t built
  show (run t).Ensures s _
  apply (meets t built).imp
  rintro ⟨outcome, t'⟩ after _ ⟨left, post⟩
  cases outcome with
  | ok r => exact ⟨post r rfl, left⟩
  | error e => exact left

/-- Running the first alternative that does not fail. -/
theorem firstOf_ensures {run : Tactic → Tactic.Run} {alternatives : List Tactic}
    (ready : P.Pre g s) (built : ∀ t ∈ alternatives, Built blasting t)
    (meets : ∀ t now, s.Extends now → Built blasting t →
      (run t).Ensures now (P.Meets blasting g)) :
    (firstOf run alternatives).Ensures s fun found after =>
      (∀ t ∈ found.2, Built blasting t) ∧ ∀ r, found.1 = .ok r → P.Post g r after := by
  induction alternatives generalizing s with
  | nil => exact Terms.ensures_pure ⟨nofun, nofun⟩
  | cons t rest tail =>
    obtain ⟨here, later⟩ := List.forall_mem_cons.mp built
    have ran := meets t s (.refl s) here
    cases rest with
    | nil =>
      apply Terms.ensures_bind ran
      rintro ⟨outcome, t'⟩ after _ ⟨left, post⟩
      exact Terms.ensures_pure ⟨by simpa using left, post⟩
    | cons u more =>
      unfold firstOf
      apply Terms.ensures_bind ran
      rintro ⟨outcome, t'⟩ middle grown ⟨left, post⟩
      have all : ∀ t ∈ t' :: u :: more, Built blasting t := List.forall_mem_cons.mpr ⟨left, later⟩
      cases outcome with
      | ok r => exact Terms.ensures_pure ⟨all, post⟩
      | error e =>
        dsimp only
        split
        · apply Terms.ensures_bind (tail (P.pre_mono ready grown) later fun t now more =>
            meets t now (grown.trans more))
          rintro ⟨outcome, rest'⟩ after _ ⟨left', post⟩
          exact Terms.ensures_pure ⟨List.forall_mem_cons.mpr ⟨left.cleanup, left'⟩, post⟩
        · exact Terms.ensures_pure ⟨all, nofun⟩

/-- Running a tactic with other parameters. -/
theorem runWith_ensures {run : Tactic → Tactic.Run} {params : Params} {inner : Tactic}
    (built : Built blasting inner)
    (meets : ∀ t, Built blasting t → (run t).Ensures s (P.Meets blasting g)) :
    (runWith params run inner).Ensures s (P.Meets blasting g) := by
  have changed := built.update (p := params)
  unfold runWith
  split
  · next outcome =>
    rw [outcome] at changed
    exact Terms.ensures_pure ⟨changed, nofun⟩
  · next outcome =>
    rw [outcome] at changed
    apply Terms.ensures_bind (meets _ changed)
    rintro ⟨outcome, left⟩ after _ ⟨built, post⟩
    refine Terms.ensures_pure ⟨built.update, fun r same => ?_⟩
    cases outcome with
    | error e => cases same
    | ok r' =>
      apply post r
      unfold restored at same
      cases restoring : (left.update inner.params).1 with
      | error e =>
        rw [restoring] at same
        cases same
      | ok =>
        rw [restoring] at same
        exact same

/-- Every run of a tactic keeps the promises that the basic tactics keep. -/
theorem apply_meets (basics : P.Basics blasting) (depth : ℕ) :
    (∀ {context t g s}, Built blasting t → P.Pre g s →
      (applyTo context depth t g).Ensures s (P.Meets blasting g)) ∧
    ∀ {context limit t g s}, Built blasting t → P.Pre g s →
      (iterateTo context depth limit t g).Ensures s (P.Meets blasting g) := by
  induction depth with
  | zero =>
    constructor
    · intro context t g s built _
      unfold applyTo
      exact Terms.ensures_pure ⟨built, nofun⟩
    · intro context limit t g s built _
      unfold iterateTo
      exact Terms.ensures_pure ⟨built, nofun⟩
  | succ depth deeper =>
    obtain ⟨applied, iterated⟩ := deeper
    have kept : ∀ {s : Store} {g : Goal}, P.Pre g s → P.Meets blasting g
        (.ok (.single g), .skip) s := by
      intro s g ready
      refine ⟨.skip, fun r same => ?_⟩
      obtain rfl := Except.ok.inj same
      exact P.keep ready
    constructor
    · intro context t g s built ready
      unfold applyTo
      cases built with
      | simplify name simplifier =>
        apply Terms.ensures_bind (meets_of_keeps (basics.simplify ready) trivial)
        rintro ⟨outcome, left⟩ after _ ⟨_, post⟩
        exact Terms.ensures_pure ⟨.simplify name left, post⟩
      | solveEqs solver =>
        apply Terms.ensures_bind (basics.solveEqs solver ready)
        rintro ⟨outcome, left⟩ after _ post
        exact Terms.ensures_pure ⟨.solveEqs left, post⟩
      | splitClause largest =>
        apply Terms.ensures_bind (meets_of_keeps (basics.splitClause largest ready) trivial)
        rintro ⟨outcome, ⟨⟩⟩ after _ ⟨_, post⟩
        exact Terms.ensures_pure ⟨.splitClause largest, post⟩
      | bitBlast allowed blaster =>
        apply Terms.ensures_bind (meets_of_keeps (basics.bitBlast allowed ready) trivial)
        rintro ⟨outcome, left⟩ after _ ⟨_, post⟩
        exact Terms.ensures_pure ⟨.bitBlast allowed left, post⟩
      | skip => exact Terms.ensures_pure (kept ready)
      | fail reason => exact Terms.ensures_pure ⟨.fail reason, nofun⟩
      | failIfUndecided =>
        dsimp only
        split
        · exact Terms.ensures_pure ⟨.failIfUndecided, (kept ready).2⟩
        · exact Terms.ensures_pure ⟨.failIfUndecided, nofun⟩
      | failIf probe =>
        apply Terms.ensures_read_bind
        split
        · exact Terms.ensures_pure ⟨.failIf probe, nofun⟩
        · exact Terms.ensures_pure ⟨.failIf probe, (kept ready).2⟩
      | @andThen first second left right =>
        apply Terms.ensures_bind (applied left ready)
        rintro ⟨outcome, first⟩ middle grown ⟨left, post⟩
        cases outcome with
        | error e => exact Terms.ensures_pure ⟨.andThen left right, nofun⟩
        | ok r =>
          dsimp only
          have whole : P.Keeps (Built blasting) (r.sequence context fun g =>
              Attempt.ofRun fun t => applyTo context depth t g) g middle :=
            sequence_keeps (post r rfl) fun g now _ ready =>
              keeps_of_meets fun t built => applied built ready
          apply Terms.ensures_bind (meets_of_keeps whole right)
          rintro ⟨outcome, second⟩ after _ ⟨right, post⟩
          exact Terms.ensures_pure ⟨.andThen left right, post⟩
      | orElse each =>
        apply Terms.ensures_bind (firstOf_ensures ready each fun t now grown built =>
          applied built (P.pre_mono ready grown))
        rintro ⟨outcome, left⟩ after _ ⟨all, post⟩
        exact Terms.ensures_pure ⟨.orElse all, post⟩
      | cond probe left right =>
        apply Terms.ensures_read_bind
        split
        · apply Terms.ensures_bind (applied left ready)
          rintro ⟨outcome, yes⟩ after _ ⟨left, post⟩
          exact Terms.ensures_pure ⟨.cond probe left right, post⟩
        · apply Terms.ensures_bind (applied right ready)
          rintro ⟨outcome, no⟩ after _ ⟨right, post⟩
          exact Terms.ensures_pure ⟨.cond probe left right, post⟩
      | iterate inside limit =>
        apply Terms.ensures_bind (iterated inside ready)
        rintro ⟨outcome, inner⟩ after _ ⟨inside, post⟩
        exact Terms.ensures_pure ⟨.iterate inside limit, post⟩
      | tryFor inside budget =>
        apply Terms.ensures_bind (applied inside ready)
        rintro ⟨outcome, inner⟩ after _ ⟨inside, post⟩
        exact Terms.ensures_pure ⟨.tryFor inside budget, post⟩
      | usingParams inside params =>
        apply Terms.ensures_bind (runWith_ensures inside fun t built => applied built ready)
        rintro ⟨outcome, inner⟩ after _ ⟨inside, post⟩
        exact Terms.ensures_pure ⟨.usingParams inside params, post⟩
    · intro context limit t g s built ready
      unfold iterateTo
      apply Terms.ensures_read_bind
      split
      · exact Terms.ensures_pure ⟨built, nofun⟩
      · split
        · exact Terms.ensures_pure ⟨built, (kept ready).2⟩
        · apply Terms.ensures_bind (applied built ready)
          rintro ⟨outcome, inner⟩ middle grown ⟨built, post⟩
          cases outcome with
          | error e => exact Terms.ensures_pure ⟨built, nofun⟩
          | ok r =>
            dsimp only
            split
            · exact Terms.ensures_pure ⟨built, post⟩
            · have whole : P.Keeps (Built blasting) (r.sequence context fun g =>
                  Attempt.ofRun fun t => iterateTo context depth (limit.map (· - 1)) t g) g middle :=
                sequence_keeps (post r rfl) fun g now _ ready =>
                  keeps_of_meets fun t built => iterated built ready
              exact meets_of_keeps whole built

end Runs

end Promise

end Stratagem
