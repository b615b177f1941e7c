import Stratagem.Proofs.Reasoning
import Stratagem.Tactic.Apply

/-!
# The bound on the depth of runs

A run has a bound on the depth to which it nests. The bound is no part of what tactics mean: a run
that does not reach its bound does the same under every deeper bound. One step of a run agrees with
the same step under the next bound if the runs inside it do; the induction is on the bound.
-/
namespace Stratagem.Tactic

variable {α β σ τ : Type}

/-- A computation agrees with one under a deeper bound: it reaches its bound, or both do the same. -/
def Agrees (shallow deep : Terms (Except Error α × σ)) : Prop :=
  ∀ s, (shallow.run s).1.1 = .error tooDeep ∨ deep.run s = shallow.run s

namespace Agrees

variable {shallow middle deep : Terms (Except Error α × σ)}

/-- A computation agrees with itself. -/
theorem refl (work : Terms (Except Error α × σ)) : Agrees work work := fun _ => .inr rfl

/-- Agreement of two computations with the bounds in order. -/
theorem trans (first : Agrees shallow middle) (second : Agrees middle deep) :
    Agrees shallow deep := by
  intro s
  rcases first s with bound | same
  · exact .inl bound
  · rcases second s with bound | same'
    · rw [same] at bound
      exact .inl bound
    · exact .inr (same'.trans same)

/-- Computations that agree, and then others that do and that pass on that a bound was reached. -/
theorem bind {next deeper : Except Error α × σ → Terms (Except Error β × τ)}
    (first : Agrees shallow deep)
    (stops : ∀ state s, ((next (.error tooDeep, state)).run s).1.1 = .error tooDeep)
    (rest : ∀ found, Agrees (next found) (deeper found)) :
    Agrees (shallow >>= next) (deep >>= deeper) := by
  intro s
  show ((next (shallow.run s).1).run (shallow.run s).2).1.1 = _ ∨
    (deeper (deep.run s).1).run (deep.run s).2 = (next (shallow.run s).1).run (shallow.run s).2
  rcases first s with bound | same
  · have reached : (shallow.run s).1 = (.error tooDeep, (shallow.run s).1.2) := Prod.ext bound rfl
    rw [reached]
    exact .inl (stops _ _)
  · rw [same]
    exact rest _ _

/-- Looking at the store, and then computations that agree. -/
theorem read_bind {next deeper : Store → Terms (Except Error β × τ)}
    (rest : ∀ s, Agrees (next s) (deeper s)) : Agrees (read >>= next) (read >>= deeper) :=
  fun s => rest s s

end Agrees

section Attempts

variable {context : Context}

/-- An attempt agrees with one under a deeper bound, from every state. -/
def AgreesFrom (shallow deep : Attempt σ α) : Prop :=
  ∀ state, Agrees (shallow.runFrom state) (deep.runFrom state)

/-- Attempts that agree, and then others that do: the first failure is that of the whole. -/
theorem AgreesFrom.bind {shallow deep : Attempt σ α} {next deeper : α → Attempt σ β}
    (first : AgreesFrom shallow deep) (rest : ∀ a, AgreesFrom (next a) (deeper a)) :
    AgreesFrom (shallow >>= next) (deep >>= deeper) := by
  intro state
  show Agrees (shallow.runFrom state >>= fun result =>
      StateT.run (ExceptT.bindCont next result.1) result.2)
    (deep.runFrom state >>= fun result => StateT.run (ExceptT.bindCont deeper result.1) result.2)
  apply (first state).bind
  · exact fun _ _ => rfl
  · rintro ⟨_ | a, state'⟩
    · exact .refl _
    · exact rest a state'

/-- The same attempt, and then others that agree. -/
theorem AgreesFrom.bind_rest {work : Attempt σ α} {next deeper : α → Attempt σ β}
    (rest : ∀ a, AgreesFrom (next a) (deeper a)) : AgreesFrom (work >>= next) (work >>= deeper) :=
  AgreesFrom.bind (fun _ => .refl _) rest

variable {next deeper : Goal → Attempt σ TacticResult}

/-- Running tactics that agree on subgoals until one is satisfied. -/
theorem results_agrees (each : ∀ g, AgreesFrom (next g) (deeper g)) (position : ℕ)
    (goals : List Goal) : AgreesFrom (TacticResult.results context next position goals)
      (TacticResult.results context deeper position goals) := by
  induction goals generalizing position with
  | nil => exact fun _ => .refl _
  | cons goal rest later =>
    unfold TacticResult.results
    apply AgreesFrom.bind_rest
    intro _
    apply (each goal).bind
    intro r
    split
    · exact fun _ => .refl _
    · exact (later (position + 1)).bind fun _ _ => .refl _

/-- Running tactics that agree on all subgoals of a result. -/
theorem sequence_agrees (each : ∀ g, AgreesFrom (next g) (deeper g)) (first : TacticResult) :
    AgreesFrom (first.sequence context next) (first.sequence context deeper) := by
  unfold TacticResult.sequence
  split
  · exact fun _ => .refl _
  · next goal _ => exact (each goal).bind fun _ _ => .refl _
  · exact (results_agrees each 0 _).bind fun _ _ => .refl _

end Attempts

section Alternatives

variable {run deeper : Tactic → Run}

/-- Running the first alternative that does not fail: that a bound was reached is no reason to try
another one. -/
theorem firstOf_agrees (each : ∀ t, Agrees (run t) (deeper t)) (alternatives : List Tactic) :
    Agrees (firstOf run alternatives) (firstOf deeper alternatives) := by
  induction alternatives with
  | nil => exact .refl _
  | cons t rest later =>
    cases rest with
    | nil => exact (each t).bind (fun _ _ => rfl) fun _ => .refl _
    | cons u more =>
      unfold firstOf
      apply (each t).bind
      · exact fun _ _ => rfl
      · rintro ⟨e | r, t'⟩
        · dsimp only
          split
          · exact later.bind (fun _ _ => rfl) fun _ => .refl _
          · exact .refl _
        · exact .refl _

/-- Running a tactic with other parameters. -/
theorem runWith_agrees (each : ∀ t, Agrees (run t) (deeper t)) (params : Params) (inner : Tactic) :
    Agrees (runWith params run inner) (runWith params deeper inner) := by
  unfold runWith
  split
  · exact .refl _
  · exact (each _).bind (fun _ _ => rfl) fun _ => .refl _

end Alternatives

/-- A run agrees with the same run under the next bound. -/
theorem agrees_succ (depth : ℕ) :
    (∀ context t g, Agrees (applyTo context depth t g) (applyTo context (depth + 1) t g)) ∧
    ∀ context limit t g,
      Agrees (iterateTo context depth limit t g) (iterateTo context (depth + 1) limit t g) := by
  induction depth with
  | zero =>
    constructor
    · intro context t g s
      left
      rw [applyTo]
      rfl
    · intro context limit t g s
      left
      rw [iterateTo]
      rfl
  | succ depth deeper =>
    obtain ⟨applied, iterated⟩ := deeper
    constructor
    · intro context t g
      rw [applyTo.eq_def context (depth + 1), applyTo.eq_def context (depth + 1 + 1)]
      cases t with
      | andThen first second =>
        apply (applied context first g).bind
        · exact fun _ _ => rfl
        · rintro ⟨e | r, first'⟩
          · exact .refl _
          · have inside : AgreesFrom
                (r.sequence context fun g => Attempt.ofRun fun t => applyTo context depth t g)
                (r.sequence context fun g =>
                  Attempt.ofRun fun t => applyTo context (depth + 1) t g) :=
              sequence_agrees (fun g t => applied context t g) r
            exact (inside second).bind (fun _ _ => rfl) fun _ => .refl _
      | orElse alternatives =>
        exact (firstOf_agrees (fun t => applied context t g) alternatives).bind
          (fun _ _ => rfl) fun _ => .refl _
      | cond probe yes no =>
        apply Agrees.read_bind
        intro s
        dsimp only
        split
        · exact (applied context yes g).bind (fun _ _ => rfl) fun _ => .refl _
        · exact (applied context no g).bind (fun _ _ => rfl) fun _ => .refl _
      | iterate inner limit =>
        exact (iterated context limit inner g).bind (fun _ _ => rfl) fun _ => .refl _
      | tryFor inner budget => exact (applied _ inner g).bind (fun _ _ => rfl) fun _ => .refl _
      | usingParams inner params =>
        exact (runWith_agrees (fun t => applied context t g) params inner).bind
          (fun _ _ => rfl) fun _ => .refl _
      | _ => exact .refl _
    · intro context limit t g
      rw [iterateTo, iterateTo.eq_def context (depth + 1 + 1)]
      apply Agrees.read_bind
      intro s
      dsimp only
      split
      · exact .refl _
      · split
        · exact .refl _
        · apply (applied context t g).bind
          · exact fun _ _ => rfl
          · rintro ⟨e | r, t'⟩
            · exact .refl _
            · dsimp only
              split
              · exact .refl _
              · exact sequence_agrees (fun g t => iterated context (limit.map (· - 1)) t g) r t'

/-- A run that does not reach its bound does the same under every deeper bound. -/
theorem applyTo_agrees {shallow deep : ℕ} (le : shallow ≤ deep) (context : Context) (t : Tactic)
    (g : Goal) : Agrees (applyTo context shallow t g) (applyTo context deep t g) := by
  induction le with
  | refl => exact .refl _
  | step _ known => exact known.trans ((agrees_succ _).1 context t g)

end Stratagem.Tactic
