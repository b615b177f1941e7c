import Mathlib.Data.List.Forall2
import Stratagem.Rewriting.Rule
import Stratagem.Budget

/-!
# Reasoning about computations on terms

What holds after a computation: `Ensures` for computations that only build terms, for rules and
for attempts. A rule counts what it does but never looks at the counts, so what it ensures holds
for every tally. A sequence of computations is taken apart one step at a time; each step may use
that the store has only grown.
-/
namespace Stratagem

open Store (Extends)

variable {α β γ σ : Type}

/-- A member of the first of two lists that are related one by one has a partner in the second. -/
theorem exists_of_forall₂ {R : α → β → Prop} {as : List α} {bs : List β}
    (known : List.Forall₂ R as bs) {a : α} (member : a ∈ as) : ∃ b ∈ bs, R a b := by
  induction known with
  | nil => cases member
  | cons first _ rest =>
    obtain rfl | later := List.mem_cons.mp member
    · exact ⟨_, List.mem_cons_self .., first⟩
    · obtain ⟨b, inside, related⟩ := rest later
      exact ⟨b, List.mem_cons_of_mem _ inside, related⟩

namespace Terms

/-- The result and the store after a computation satisfy a condition. -/
def Ensures (work : Terms α) (s : Store) (post : α → Store → Prop) : Prop :=
  post (work.run s).1 (work.run s).2

variable {s : Store} {post : α → Store → Prop}

/-- A result alone ensures what holds of it at once. -/
theorem ensures_pure {a : α} (holds : post a s) : (pure a : Terms α).Ensures s post := holds

/-- What follows from what a computation ensures, in a store that has grown, is ensured too. -/
theorem Ensures.imp {work : Terms α} {weaker : α → Store → Prop} (ensured : work.Ensures s post)
    (follows : ∀ a after, s.Extends after → post a after → weaker a after) :
    work.Ensures s weaker :=
  follows _ _ (work.grows s) ensured

/-- A computation and then another one on its result. -/
theorem ensures_bind {work : Terms α} {next : α → Terms β} {final : β → Store → Prop}
    (first : work.Ensures s post)
    (second : ∀ a after, s.Extends after → post a after → (next a).Ensures after final) :
    (work >>= next).Ensures s final :=
  second _ _ (work.grows s) first

/-- Reading the store and then a computation on it. -/
theorem ensures_read_bind {next : Store → Terms β} {final : β → Store → Prop}
    (ensured : (next s).Ensures s final) : (read >>= next).Ensures s final := ensured

/-- A computation whose result does not matter, and then another one. -/
theorem ensures_bind_of_all {work : Terms α} {next : α → Terms β} {final : β → Store → Prop}
    (second : ∀ a after, s.Extends after → (next a).Ensures after final) :
    (work >>= next).Ensures s final :=
  second _ _ (work.grows s)

/-- A computation ensures both of what it ensures separately. -/
theorem Ensures.and {work : Terms α} {other : α → Store → Prop} (first : work.Ensures s post)
    (second : work.Ensures s other) : work.Ensures s fun a after => post a after ∧ other a after :=
  ⟨first, second⟩

/-- A computation ensures at once what it ensures for every member of a family. -/
theorem ensures_forall {ι : Sort*} {work : Terms α} {post : ι → α → Store → Prop}
    (each : ∀ i, work.Ensures s (post i)) : work.Ensures s fun a after => ∀ i, post i a after := each

/-- A computation on every member of a list. The condition on a result must outlast the
computations on the later members. -/
theorem ensures_mapM {work : α → Terms β} {related : Store → α → β → Prop}
    (lasting : ∀ a b before after, Extends before after → related before a b → related after a b) :
    ∀ (members : List α) {s : Store}, (∀ a ∈ members, ∀ now, s.Extends now →
      (work a).Ensures now fun b after => related after a b) →
    (members.mapM work).Ensures s fun results after => List.Forall₂ (related after) members results
  | [], s, _ => ensures_pure .nil
  | a :: rest, s, each => by
    rw [List.mapM_cons]
    refine ensures_bind (each a (List.mem_cons_self ..) s (.refl s)) fun b middle grown found => ?_
    have later : ∀ a ∈ rest, ∀ now, middle.Extends now →
        (work a).Ensures now fun b after => related after a b :=
      fun a inside now more => each a (List.mem_cons_of_mem _ inside) now (grown.trans more)
    refine ensures_bind (ensures_mapM lasting rest later) fun results after more others => ?_
    exact ensures_pure (.cons (lasting a b middle after more found) others)

/-- A computation on every member of a list of which something is known. What is known of a member
and of a result must outlast the other computations. -/
theorem ensures_mapM_forall₂ {work : α → Terms β} {K : Store → α → γ → Prop}
    {F : Store → β → γ → Prop}
    (knownLasts : ∀ a x before after, Extends before after → K before a x → K after a x)
    (foundLasts : ∀ b x before after, Extends before after → F before b x → F after b x) :
    ∀ {members : List α} {xs : List γ} {s : Store}, List.Forall₂ (K s) members xs →
    (∀ a x now, s.Extends now → K now a x →
      (work a).Ensures now fun b after => F after b x) →
    (members.mapM work).Ensures s fun results after => List.Forall₂ (F after) results xs
  | [], [], s, .nil, _ => ensures_pure .nil
  | a :: rest, x :: xs, s, .cons first others, each => by
    rw [List.mapM_cons]
    refine ensures_bind (each a x s (.refl s) first) fun b middle grown result => ?_
    have known := others.imp fun a x known => knownLasts a x s middle grown known
    refine ensures_bind (ensures_mapM_forall₂ knownLasts foundLasts known fun a x now more =>
      each a x now (grown.trans more)) fun results after more rest => ?_
    exact ensures_pure (.cons (foundLasts b x middle after more result) rest)

end Terms

namespace Rule

/-- The result and the store after a rule satisfy a condition, whatever was counted before. -/
def Ensures (rule : Rule α) (config : SimplifierConfig) (s : Store) (post : α → Store → Prop) :
    Prop :=
  ∀ tally, post (((rule.run config).run tally).run s).1.1 (((rule.run config).run tally).run s).2

variable {config : SimplifierConfig} {s : Store} {post : α → Store → Prop}

/-- A result alone ensures what holds of it at once. -/
theorem ensures_pure {a : α} (holds : post a s) : (pure a : Rule α).Ensures config s post :=
  fun _ => holds

/-- Looking at the store ensures what holds of what is seen. -/
theorem ensures_peek {look : Store → α} (holds : post (look s) s) :
    (peek look).Ensures config s post := fun _ => holds

/-- Looking at the store and then a rule for what is seen. -/
theorem ensures_peek_bind {look : Store → α} {next : α → Rule β} {final : β → Store → Prop}
    (ensured : (next (look s)).Ensures config s final) :
    (peek look >>= next).Ensures config s final := ensured

/-- Reading the configuration and then a rule for it. -/
theorem ensures_read_bind {next : SimplifierConfig → Rule β} {final : β → Store → Prop}
    (ensured : (next config).Ensures config s final) :
    (read >>= next).Ensures config s final := ensured

/-- Counting, and then a rule. -/
theorem ensures_modify_bind {count : RuleTally → RuleTally} {next : Unit → Rule β}
    {final : β → Store → Prop} (ensured : (next ()).Ensures config s final) :
    (modify count >>= next).Ensures config s final := fun tally => ensured (count tally)

/-- Building terms ensures in a rule what it ensures by itself. -/
theorem ensures_lift {work : Terms α} (ensured : work.Ensures s post) :
    (liftM work : Rule α).Ensures config s post := fun _ => ensured

/-- What follows from what a rule ensures, in a store that has grown, is ensured too. -/
theorem Ensures.imp {rule : Rule α} {weaker : α → Store → Prop}
    (ensured : rule.Ensures config s post)
    (follows : ∀ a after, s.Extends after → post a after → weaker a after) :
    rule.Ensures config s weaker :=
  fun tally => follows _ _ (((rule.run config).run tally).grows s) (ensured tally)

/-- A rule and then another one on its result. -/
theorem ensures_bind {rule : Rule α} {next : α → Rule β} {final : β → Store → Prop}
    (first : rule.Ensures config s post)
    (second : ∀ a after, s.Extends after → post a after → (next a).Ensures config after final) :
    (rule >>= next).Ensures config s final :=
  fun tally => second _ _ (((rule.run config).run tally).grows s) (first tally) _

/-- A rule whose result does not matter, and then another one. -/
theorem ensures_bind_of_all {rule : Rule α} {next : α → Rule β} {final : β → Store → Prop}
    (second : ∀ a after, s.Extends after → (next a).Ensures config after final) :
    (rule >>= next).Ensures config s final :=
  fun tally => second _ _ (((rule.run config).run tally).grows s) _

/-- A value and then a rule on it. -/
theorem ensures_pure_bind {a : α} {next : α → Rule β} {final : β → Store → Prop}
    (ensured : (next a).Ensures config s final) : (pure a >>= next).Ensures config s final :=
  ensured

/-- One of two rules and then another one on its result. -/
theorem ensures_ite_bind {c : Prop} [Decidable c] {yes no : Rule α} {next : α → Rule β}
    {final : β → Store → Prop} (first : (if c then yes else no).Ensures config s post)
    (second : ∀ a after, s.Extends after → post a after → (next a).Ensures config after final) :
    (if c then yes >>= next else no >>= next).Ensures config s final := by
  split_ifs at first ⊢ <;> exact ensures_bind first second

/-- A rule on every member of a list. The condition on a result must outlast the rules on the
later members. -/
theorem ensures_mapM {rule : α → Rule β} {related : Store → α → β → Prop}
    (lasting : ∀ a b before after, Extends before after → related before a b → related after a b) :
    ∀ (members : List α) {s : Store}, (∀ a ∈ members, ∀ now, s.Extends now →
      (rule a).Ensures config now fun b after => related after a b) →
    (members.mapM rule).Ensures config s fun results after =>
      List.Forall₂ (related after) members results
  | [], s, _ => ensures_pure .nil
  | a :: rest, s, each => by
    rw [List.mapM_cons]
    refine ensures_bind (each a (List.mem_cons_self ..) s (.refl s)) fun b middle grown found => ?_
    have later : ∀ a ∈ rest, ∀ now, middle.Extends now →
        (rule a).Ensures config now fun b after => related after a b :=
      fun a inside now more => each a (List.mem_cons_of_mem _ inside) now (grown.trans more)
    refine ensures_bind (ensures_mapM lasting rest later) fun results after more others => ?_
    exact ensures_pure (.cons (lasting a b middle after more found) others)

/-- A rule ensures both of what it ensures separately. -/
theorem Ensures.and {rule : Rule α} {other : α → Store → Prop}
    (first : rule.Ensures config s post) (second : rule.Ensures config s other) :
    rule.Ensures config s fun a after => post a after ∧ other a after :=
  fun tally => ⟨first tally, second tally⟩

/-- A rule ensures at once what it ensures for every member of a family. -/
theorem ensures_forall {ι : Sort*} {rule : Rule α} {post : ι → α → Store → Prop}
    (each : ∀ i, rule.Ensures config s (post i)) :
    rule.Ensures config s fun a after => ∀ i, post i a after := fun tally i => each i tally

end Rule

namespace Attempt

/-- After an attempt from a state, its result, its state and the store satisfy one condition if it
succeeds, and another one if it fails. -/
def Ensures (work : Attempt σ α) (state : σ) (s : Store) (good : α → σ → Store → Prop)
    (bad : Error → σ → Store → Prop) : Prop :=
  (work.runFrom state).Ensures s fun result after =>
    match result.1 with
    | .ok a => good a result.2 after
    | .error e => bad e result.2 after

variable {s : Store} {state : σ} {good : α → σ → Store → Prop} {final : β → σ → Store → Prop}
  {bad : Error → σ → Store → Prop}

/-- A result alone ensures what holds of it at once. -/
theorem ensures_pure {a : α} (holds : good a state s) :
    (pure a : Attempt σ α).Ensures state s good bad := holds

/-- A failure ensures what holds of it at once. -/
theorem ensures_throw {e : Error} (holds : bad e state s) :
    (throw e : Attempt σ α).Ensures state s good bad := holds

/-- Nothing is done after a failure. -/
theorem ensures_throw_bind {e : Error} {next : α → Attempt σ β} (holds : bad e state s) :
    (throw e >>= next : Attempt σ β).Ensures state s final bad := holds

/-- What follows from what an attempt ensures, in a store that has grown, is ensured too. -/
theorem Ensures.imp {work : Attempt σ α} {weaker : α → σ → Store → Prop}
    {worse : Error → σ → Store → Prop} (ensured : work.Ensures state s good bad)
    (follows : ∀ a state' after, s.Extends after → good a state' after → weaker a state' after)
    (otherwise : ∀ e state' after, s.Extends after → bad e state' after → worse e state' after) :
    work.Ensures state s weaker worse := by
  refine Terms.Ensures.imp ensured fun result after grown holds => ?_
  split
  · next a success =>
    rw [success] at holds
    exact follows a _ after grown holds
  · next e failure =>
    rw [failure] at holds
    exact otherwise e _ after grown holds

/-- Whatever an attempt does, it succeeds or fails. -/
theorem ensures_trivial {work : Attempt σ α} :
    work.Ensures state s (fun _ _ _ => True) fun _ _ _ => True := by
  unfold Ensures Terms.Ensures
  dsimp only
  split <;> trivial

/-- An attempt ensures both of what it ensures separately. -/
theorem Ensures.and {work : Attempt σ α} {other : α → σ → Store → Prop}
    {worse : Error → σ → Store → Prop} (first : work.Ensures state s good bad)
    (second : work.Ensures state s other worse) :
    work.Ensures state s (fun a state' after => good a state' after ∧ other a state' after)
      (fun e state' after => bad e state' after ∧ worse e state' after) := by
  unfold Ensures Terms.Ensures at *
  generalize (work.runFrom state).run s = result at *
  obtain ⟨⟨outcome, state'⟩, after⟩ := result
  cases outcome with
  | ok => exact ⟨first, second⟩
  | error => exact ⟨first, second⟩

/-- An attempt ensures at once what it ensures for every member of a family. -/
theorem ensures_forall {ι : Sort*} {work : Attempt σ α} {post : ι → α → σ → Store → Prop}
    (each : ∀ i, work.Ensures state s (post i) fun _ _ _ => True) :
    work.Ensures state s (fun a state' after => ∀ i, post i a state' after) fun _ _ _ => True := by
  unfold Ensures Terms.Ensures at *
  generalize (work.runFrom state).run s = result at *
  obtain ⟨⟨outcome, state'⟩, after⟩ := result
  cases outcome with
  | ok => exact each
  | error => trivial

/-- What a successful run satisfies. -/
theorem Ensures.of_ok {work : Attempt σ α} {a : α} {state' : σ} {after : Store}
    (ensured : work.Ensures state s good bad)
    (run : (work.runFrom state).run s = ((.ok a, state'), after)) : good a state' after := by
  unfold Ensures Terms.Ensures at ensured
  rw [run] at ensured
  exact ensured

/-- What a run that fails satisfies. -/
theorem Ensures.of_error {work : Attempt σ α} {e : Error} {state' : σ} {after : Store}
    (ensured : work.Ensures state s good bad)
    (run : (work.runFrom state).run s = ((.error e, state'), after)) : bad e state' after := by
  unfold Ensures Terms.Ensures at ensured
  rw [run] at ensured
  exact ensured

/-- An attempt that cannot fail has a successful run. -/
theorem Ensures.exists_ok {work : Attempt σ α}
    (ensured : work.Ensures state s good fun _ _ _ => False) :
    ∃ a state' after, (work.runFrom state).run s = ((.ok a, state'), after) ∧
      good a state' after := by
  unfold Ensures Terms.Ensures at ensured
  generalize (work.runFrom state).run s = result at ensured
  obtain ⟨⟨outcome, state'⟩, after⟩ := result
  cases outcome with
  | ok a => exact ⟨a, state', after, rfl, ensured⟩
  | error => exact ensured.elim

/-- The run of a result alone. -/
theorem run_pure (a : α) (state : σ) (s : Store) :
    ((pure a : Attempt σ α).runFrom state).run s = ((.ok a, state), s) := rfl

/-- The run of a look at the store. -/
theorem run_read (state : σ) (s : Store) :
    ((readThe Store : Attempt σ Store).runFrom state).run s = ((.ok s, state), s) := rfl

/-- The run of a computation that builds terms. -/
theorem run_build (work : Terms α) (state : σ) (s : Store) :
    ((Attempt.build work : Attempt σ α).runFrom state).run s =
      ((.ok (work.run s).1, state), (work.run s).2) := rfl

/-- Nothing interrupts a run without bounds. -/
theorem run_check_unbounded (state : σ) (s : Store) :
    ((Attempt.check .unbounded : Attempt σ Unit).runFrom state).run s = ((.ok (), state), s) := rfl

/-- The run of an attempt and then another one on its result. -/
theorem run_bind (work : Attempt σ α) (next : α → Attempt σ β) (state : σ) (s : Store) :
    ((work >>= next).runFrom state).run s =
      match (work.runFrom state).run s with
      | ((.ok a, state'), after) => ((next a).runFrom state').run after
      | ((.error e, state'), after) => ((.error e, state'), after) := by
  show (StateT.run (ExceptT.bindCont next ((work.runFrom state).run s).1.1)
    ((work.runFrom state).run s).1.2).run ((work.runFrom state).run s).2 = _
  generalize (work.runFrom state).run s = result
  obtain ⟨⟨_ | _, state'⟩, after⟩ := result <;> rfl

/-- What is done after an attempt may be replaced by what runs in the same way after it. -/
theorem Ensures.run_bind_congr {work : Attempt σ α} {next other : α → Attempt σ β}
    (ensured : work.Ensures state s good bad)
    (same : ∀ a state' after, good a state' after →
      ((next a).runFrom state').run after = ((other a).runFrom state').run after) :
    ((work >>= next).runFrom state).run s = ((work >>= other).runFrom state).run s := by
  unfold Ensures Terms.Ensures at ensured
  rw [run_bind, run_bind]
  generalize (work.runFrom state).run s = result at *
  obtain ⟨⟨outcome, state'⟩, after⟩ := result
  cases outcome with
  | ok a => exact same a state' after ensured
  | error => rfl

/-- An attempt and then another one on its result. -/
theorem ensures_bind {work : Attempt σ α} {next : α → Attempt σ β}
    (first : work.Ensures state s good bad)
    (second : ∀ a state' after, s.Extends after → good a state' after →
      (next a).Ensures state' after final bad) :
    (work >>= next).Ensures state s final bad := by
  show (work.runFrom state >>= fun result =>
    StateT.run (ExceptT.bindCont next result.1) result.2).Ensures s _
  refine Terms.ensures_bind first fun result after grown holds => ?_
  obtain ⟨_ | _, state'⟩ := result
  · exact holds
  · exact second _ state' after grown holds

/-- A value and then an attempt on it. -/
theorem ensures_pure_bind {a : α} {next : α → Attempt σ β}
    (ensured : (next a).Ensures state s final bad) :
    (pure a >>= next).Ensures state s final bad := ensured

/-- Looking at the state and then an attempt for it. -/
theorem ensures_get_bind {next : σ → Attempt σ β}
    (ensured : (next state).Ensures state s final bad) :
    (get >>= next).Ensures state s final bad := ensured

/-- Looking at the store and then an attempt for it. -/
theorem ensures_read_bind {next : Store → Attempt σ β}
    (ensured : (next s).Ensures state s final bad) :
    (readThe Store >>= next).Ensures state s final bad := ensured

/-- Changing the state and then an attempt from there. -/
theorem ensures_modify_bind {change : σ → σ} {next : Unit → Attempt σ β}
    (ensured : (next ()).Ensures (change state) s final bad) :
    (modify change >>= next).Ensures state s final bad := ensured

/-- Checking the circumstances changes nothing and fails only where there are bounds. -/
theorem ensures_check {context : Context} :
    (Attempt.check context : Attempt σ Unit).Ensures state s
      (fun _ state' after => state' = state ∧ after = s) fun _ _ _ => context ≠ .unbounded := by
  refine ensures_read_bind ?_
  cases checked : context.check s with
  | ok => exact ensures_pure ⟨rfl, rfl⟩
  | error =>
    refine ensures_throw fun free => ?_
    subst free
    cases checked

/-- Building terms and then an attempt with the result. -/
theorem ensures_build_bind {work : Terms α} {post : α → Store → Prop} {next : α → Attempt σ β}
    (built : work.Ensures s post)
    (ensured : ∀ a after, s.Extends after → post a after →
      (next a).Ensures state after final bad) :
    ((liftM work : Attempt σ α) >>= next).Ensures state s final bad :=
  Terms.ensures_bind built ensured

/-- Building terms whose result does not matter, and then an attempt. -/
theorem ensures_build_bind_of_all {work : Terms α} {next : α → Attempt σ β}
    (ensured : ∀ a after, s.Extends after → (next a).Ensures state after final bad) :
    ((liftM work : Attempt σ α) >>= next).Ensures state s final bad :=
  Terms.ensures_bind_of_all ensured

/-- Building terms. -/
theorem ensures_build {work : Terms α} {post : α → Store → Prop} (built : work.Ensures s post) :
    (Attempt.build work : Attempt σ α).Ensures state s
      (fun a state' after => state' = state ∧ post a after) bad := ⟨rfl, built⟩

/-- Building any terms leaves the state as it is. -/
theorem ensures_build_any {work : Terms α} :
    (Attempt.build work : Attempt σ α).Ensures state s (fun _ state' _ => state' = state) bad := rfl

/-- An attempt on every member of a list, each of which keeps an invariant and leads from state to
state. The condition on a result must outlast the attempts on the later members. -/
theorem ensures_mapM_leads {work : α → Attempt σ β} {P : σ → Store → Prop} {L : σ → σ → Prop}
    {R : σ → Store → α → β → Prop} (refl : ∀ x, L x x)
    (trans : ∀ x y z, L x y → L y z → L x z)
    (lasting : ∀ a b x y before after, L x y → Extends before after →
      R x before a b → R y after a b) :
    ∀ (members : List α) {state : σ} {s : Store}, P state s →
    (∀ a ∈ members, ∀ state' now, s.Extends now → L state state' → P state' now →
      (work a).Ensures state' now (fun b state'' after =>
        L state' state'' ∧ P state'' after ∧ R state'' after a b) bad) →
    (members.mapM work).Ensures state s (fun results state' after =>
      L state state' ∧ P state' after ∧ List.Forall₂ (R state' after) members results) bad
  | [], state, s, holds, _ => ensures_pure ⟨refl state, holds, .nil⟩
  | a :: rest, state, s, holds, each => by
    rw [List.mapM_cons]
    apply ensures_bind (each a (List.mem_cons_self ..) state s (.refl s) (refl state) holds)
    rintro b state' middle grown ⟨first, holds, found⟩
    have later : ∀ a ∈ rest, ∀ state'' now, middle.Extends now → L state' state'' →
        P state'' now → (work a).Ensures state'' now (fun b last after =>
          L state'' last ∧ P last after ∧ R last after a b) bad :=
      fun a inside state'' now more second => each a (List.mem_cons_of_mem _ inside) state'' now
        (grown.trans more) (trans _ _ _ first second)
    apply ensures_bind (ensures_mapM_leads refl trans lasting rest holds later)
    rintro results last after more ⟨second, holds, others⟩
    apply ensures_pure
    exact ⟨trans _ _ _ first second, holds,
      .cons (lasting a b state' last middle after second more found) others⟩

/-- An attempt on every member of a list, each of which keeps an invariant. The condition on a
result must outlast the attempts on the later members. -/
theorem ensures_mapM {work : α → Attempt σ β} {P : σ → Store → Prop}
    {related : Store → α → β → Prop}
    (lasting : ∀ a b before after, Extends before after → related before a b → related after a b)
    (members : List α) {state : σ} {s : Store} (holds : P state s)
    (each : ∀ a ∈ members, ∀ state' now, s.Extends now → P state' now →
      (work a).Ensures state' now (fun b state'' after => P state'' after ∧ related after a b)
        bad) :
    (members.mapM work).Ensures state s (fun results state' after =>
      P state' after ∧ List.Forall₂ (related after) members results) bad := by
  have all : (members.mapM work).Ensures state s (fun results state' after =>
      True ∧ P state' after ∧ List.Forall₂ (related after) members results) bad :=
    ensures_mapM_leads (fun _ => trivial) (fun _ _ _ _ _ => trivial)
      (fun a b _ _ before after _ => lasting a b before after) members holds
      fun a inside state' now grown _ holds => (each a inside state' now grown holds).imp
        (fun _ _ _ _ result => ⟨trivial, result⟩) fun _ _ _ _ failure => failure
  exact all.imp (fun _ _ _ _ result => result.2) fun _ _ _ _ failure => failure

/-- An attempt on one term. -/
theorem ensures_mapM_single {work : α → Attempt σ β} {a : α} {good : β → σ → Store → Prop}
    (only : (work a).Ensures state s good bad) :
    ([a].mapM work).Ensures state s (fun found state' after => ∃ u, found = [u] ∧
      good u state' after) bad := by
  simp only [List.mapM_cons, List.mapM_nil, pure_bind]
  refine ensures_bind only fun u state' now _ known => ?_
  exact ensures_pure ⟨u, rfl, known⟩

/-- An attempt on two terms, one after the other. -/
theorem ensures_mapM_pair {work : α → Attempt σ β} {a b : α}
    {early : β → σ → Store → Prop} {good : List β → σ → Store → Prop}
    (first : (work a).Ensures state s early bad)
    (second : ∀ u state' now, early u state' now →
      (work b).Ensures state' now (fun w state'' after => good [u, w] state'' after) bad) :
    ([a, b].mapM work).Ensures state s good bad := by
  simp only [List.mapM_cons, List.mapM_nil, bind_assoc, pure_bind]
  refine ensures_bind first fun u state' now _ known => ?_
  refine ensures_bind (second u state' now known) fun w state'' after _ known => ?_
  exact ensures_pure known

section Preserving

/-- An attempt that succeeds keeps an invariant of the state and the store. -/
def Preserves (work : Attempt σ α) (P : σ → Store → Prop) : Prop :=
  ∀ state s, P state s → work.Ensures state s (fun _ state' after => P state' after)
    fun _ _ _ => True

variable {P : σ → Store → Prop}

/-- A result alone changes nothing. -/
theorem preserves_pure (a : α) : (pure a : Attempt σ α).Preserves P :=
  fun _ _ holds => ensures_pure holds

/-- A failure is no success. -/
theorem preserves_throw (e : Error) : (throw e : Attempt σ α).Preserves P :=
  fun _ _ _ => ensures_throw trivial

/-- Nothing succeeds after a failure. -/
theorem preserves_throw_bind (e : Error) (next : α → Attempt σ β) :
    (throw e >>= next : Attempt σ β).Preserves P := fun _ _ _ => ensures_throw_bind trivial

/-- What both of two attempts keep is kept by one after the other. -/
theorem preserves_bind {work : Attempt σ α} {next : α → Attempt σ β} (first : work.Preserves P)
    (second : ∀ a, (next a).Preserves P) : (work >>= next).Preserves P :=
  fun state s holds => ensures_bind (first state s holds) fun a state' after _ holds =>
    second a state' after holds

/-- Looking at the state changes nothing. -/
theorem preserves_get_bind {next : σ → Attempt σ β} (each : ∀ state, (next state).Preserves P) :
    (get >>= next).Preserves P :=
  fun state s holds => ensures_get_bind (each state state s holds)

/-- Looking at the store changes nothing. -/
theorem preserves_read_bind {next : Store → Attempt σ β}
    (each : ∀ state s, P state s → (next s).Preserves P) : (readThe Store >>= next).Preserves P :=
  fun state s holds => ensures_read_bind (each state s holds state s holds)

/-- A change of the state that keeps the invariant. -/
theorem preserves_modify {change : σ → σ} (each : ∀ state s, P state s → P (change state) s) :
    (modify change : Attempt σ PUnit).Preserves P := fun state s holds => each state s holds

/-- Building terms keeps an invariant that outlasts the growth of the store. -/
theorem preserves_build (lasting : ∀ state s after, P state s → s.Extends after → P state after)
    (work : Terms α) : (Attempt.build work).Preserves P :=
  fun state s holds => lasting state s _ holds (work.grows s)

/-- What every attempt keeps is kept by all one after the other. -/
theorem preserves_mapM {work : α → Attempt σ β} :
    ∀ (members : List α), (∀ a ∈ members, (work a).Preserves P) → (members.mapM work).Preserves P
  | [], _ => preserves_pure []
  | a :: rest, each => by
    rw [List.mapM_cons]
    apply preserves_bind (each a (List.mem_cons_self ..))
    intro b
    apply preserves_bind (preserves_mapM rest fun c member => each c (List.mem_cons_of_mem _ member))
    intro others
    exact preserves_pure (b :: others)

end Preserving

end Attempt
end Stratagem
