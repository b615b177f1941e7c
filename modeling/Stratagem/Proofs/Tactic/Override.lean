import Stratagem.Proofs.Tactic.Apply
import Stratagem.Proofs.Tactic.Configuration

/-!
# Tactics that run with other parameters

Before a run with other parameters the parameters of all parts are saved as one set, and after it
that set is given to every part. A run changes the configuration of parts and what they remember,
but neither their kinds nor their order, so the set is accepted, and what a part becomes depends on
its kind only: it has the saved values. They are those it had before if all parts agree on the
parameters that they share, and only then.
-/
namespace Stratagem.Tactic

open Params Terms

variable {p : Params} {t u w : Tactic} {s : Store} {g : Goal} {context : Context}

section Shapes

/-- Two tactics are composed of parts of the same kinds. -/
def Alike (t u : Tactic) : Prop := List.Forall₂ SameKind t.parts u.parts

/-- Parts of the kinds of others have the same kinds as those. -/
theorem sameKinds_trans {before between after : List Tactic}
    (first : List.Forall₂ SameKind before between) (second : List.Forall₂ SameKind between after) :
    List.Forall₂ SameKind before after := by
  induction first generalizing after with
  | nil => exact second
  | cons kind _ later =>
    cases second with
    | cons kind' rest => exact .cons (kind.trans kind') (later rest)

/-- Tactics composed of parts of the same kinds as a third one are alike. -/
theorem Alike.trans (first : Alike t u) (second : Alike u w) : Alike t w :=
  sameKinds_trans first second

mutual

/-- A tactic is composed of the same kinds of parts without working state. -/
theorem alike_cleanup : ∀ t : Tactic, Alike t t.cleanup
  | andThen first second => List.rel_append (alike_cleanup first) (alike_cleanup second)
  | orElse alternatives => alike_cleanupAll alternatives
  | cond _ yes no => List.rel_append (alike_cleanup yes) (alike_cleanup no)
  | iterate inner _ | tryFor inner _ | usingParams inner _ => alike_cleanup inner
  | simplify name x => .cons (.simplify name x _) .nil
  | solveEqs x => .cons (.solveEqs x _) .nil
  | splitClause a => .cons (.splitClause a a) .nil
  | bitBlast x => .cons (.bitBlast x _) .nil
  | skip => .cons .skip .nil
  | fail reason => .cons (.fail reason) .nil
  | failIfUndecided => .cons .failIfUndecided .nil
  | failIf probe => .cons (.failIf probe) .nil
  | custom name reply => .cons (.custom name reply) .nil

/-- Tactics are composed of the same kinds of parts without their working states. -/
theorem alike_cleanupAll : ∀ alternatives : List Tactic,
    List.Forall₂ SameKind (partsOfAll alternatives) (partsOfAll (cleanupAll alternatives))
  | [] => .nil
  | t :: rest => List.rel_append (alike_cleanup t) (alike_cleanupAll rest)

end

/-- A part is of its own kind. -/
theorem sameKind_of_mem (inside : u ∈ t.parts) : SameKind u u := by
  obtain ⟨w, _, kind⟩ := exists_of_forall₂ (alike_cleanup t) inside
  cases kind <;> constructor

/-- A tactic is composed of the same kinds of parts as itself. -/
theorem Alike.refl (t : Tactic) : Alike t t :=
  List.forall₂_same.mpr fun _ inside => sameKind_of_mem inside

/-- A change of parameters keeps the kinds of parts. -/
theorem Changes.sameKinds {parts before after : List Tactic} {outcome : Except Error Unit}
    (changes : Changes p before outcome after) (kinds : List.Forall₂ SameKind parts before) :
    List.Forall₂ SameKind parts after := by
  induction changes generalizing parts with
  | none => exact kinds
  | accepted changed _ later =>
    cases kinds with
    | cons kind rest =>
      have kind' := kind.update p
      rw [changed] at kind'
      exact .cons kind' (later rest)
  | refused changed _ _ =>
    cases kinds with
    | cons kind rest =>
      have kind' := kind.update p
      rw [changed] at kind'
      exact .cons kind' rest

/-- A tactic is composed of the same kinds of parts after a change of parameters. -/
theorem alike_update (p : Params) (t : Tactic) : Alike t (t.update p).2 :=
  (changes_update p t).sameKinds (Alike.refl t)

end Shapes

section Runs

/-- Nothing is asked of goals and results. -/
def idle : Promise where
  Pre _ _ := True
  Post _ _ _ := True
  pre_mono _ _ := trivial
  post_mono _ _ := trivial
  keep _ := trivial
  subgoals _ _ _ := trivial
  after _ _ _ := trivial
  satisfiedAt _ _ _ _ _ := trivial
  afterAll _ _ _ := fun _ _ => trivial

/-- A run leaves a tactic of the same kinds of parts. -/
def Shaped (run : Tactic → Run) (s : Store) : Prop :=
  ∀ t, (run t).Ensures s fun found _ => Alike t found.2

/-- Runs on subgoals, one after the other, keep the kinds of parts. -/
theorem sequence_alike {run : Goal → Tactic → Run} (shaped : ∀ g s, Shaped (run g) s)
    (g : Goal) (first : TacticResult) (t : Tactic) : ((first.sequence context fun g =>
      Attempt.ofRun (run g)).runFrom t).Ensures s fun found _ => Alike t found.2 := by
  have kept : idle.Keeps (Alike t) (first.sequence context fun g => Attempt.ofRun (run g)) g s := by
    refine Promise.sequence_keeps trivial fun g now _ _ u known => ?_
    show (run g u).Ensures now _
    refine (shaped g now u).imp ?_
    rintro ⟨outcome, u'⟩ after _ more
    cases outcome with
    | ok r => exact ⟨trivial, known.trans more⟩
    | error e => exact known.trans more
  exact (Promise.meets_of_keeps kept (Alike.refl t)).imp fun _ _ _ found => found.1

/-- Running the first alternative that does not fail keeps the kinds of parts. -/
theorem firstOf_alike {run : Tactic → Run} (shaped : ∀ s, Shaped run s)
    (alternatives : List Tactic) (s : Store) : (firstOf run alternatives).Ensures s fun found _ =>
      List.Forall₂ SameKind (partsOfAll alternatives) (partsOfAll found.2) := by
  have same (rest : List Tactic) : List.Forall₂ SameKind (partsOfAll rest) (partsOfAll rest) :=
    Alike.refl (orElse rest)
  induction alternatives generalizing s with
  | nil => exact ensures_pure .nil
  | cons t rest later =>
    cases rest with
    | nil =>
      refine ensures_bind (shaped s t) fun found after _ alike => ?_
      exact ensures_pure (List.rel_append alike .nil)
    | cons u more =>
      unfold firstOf
      refine ensures_bind (shaped s t) ?_
      rintro ⟨outcome, t'⟩ middle _ alike
      cases outcome with
      | ok r => exact ensures_pure (List.rel_append alike (same _))
      | error e =>
        dsimp only
        split
        · refine ensures_bind (later middle) fun found after _ others => ?_
          exact ensures_pure (List.rel_append (alike.trans (alike_cleanup t')) others)
        · exact ensures_pure (List.rel_append alike (same _))

/-- Running a tactic with other parameters keeps the kinds of parts. -/
theorem runWith_alike {run : Tactic → Run} (shaped : ∀ s, Shaped run s) (params : Params) (s : Store) :
    Shaped (runWith params run) s := by
  intro inner
  have changed := alike_update params inner
  unfold runWith
  split
  · next refused =>
    rw [refused] at changed
    exact ensures_pure changed
  · next accepted =>
    rw [accepted] at changed
    refine ensures_bind (shaped s _) ?_
    rintro ⟨outcome, left⟩ after _ alike
    exact ensures_pure ((changed.trans alike).trans (alike_update inner.params left))

/-- Every run keeps the kinds of parts. -/
theorem run_alike (depth : ℕ) :
    (∀ context g s, Shaped (fun t => applyTo context depth t g) s) ∧
      ∀ context limit g s, Shaped (fun t => iterateTo context depth limit t g) s := by
  induction depth with
  | zero =>
    constructor
    · intro context g s t
      unfold applyTo
      exact ensures_pure (.refl t)
    · intro context limit g s t
      unfold iterateTo
      exact ensures_pure (.refl t)
  | succ depth deeper =>
    obtain ⟨applied, iterated⟩ := deeper
    have same (u : Tactic) : List.Forall₂ SameKind u.parts u.parts := Alike.refl u
    constructor
    · intro context g s t
      dsimp only
      unfold applyTo
      cases t with
      | simplify name x =>
        exact ensures_bind_of_all fun found _ _ => ensures_pure (.cons (.simplify name x _) .nil)
      | solveEqs x =>
        exact ensures_bind_of_all fun found _ _ => ensures_pure (.cons (.solveEqs x _) .nil)
      | splitClause largest =>
        exact ensures_bind_of_all fun found _ _ => ensures_pure (.refl _)
      | bitBlast x =>
        exact ensures_bind_of_all fun found _ _ => ensures_pure (.cons (.bitBlast x _) .nil)
      | skip => exact ensures_pure (.refl _)
      | fail reason => exact ensures_pure (.refl _)
      | failIfUndecided =>
        dsimp only
        split <;> exact ensures_pure (.refl _)
      | failIf probe =>
        refine ensures_read_bind ?_
        split <;> exact ensures_pure (.refl _)
      | custom name reply => exact ensures_pure (.refl _)
      | andThen first second =>
        refine ensures_bind (applied context g s first) ?_
        rintro ⟨outcome, first'⟩ middle _ alike
        cases outcome with
        | error e => exact ensures_pure (List.rel_append alike (same second))
        | ok r =>
          refine ensures_bind (sequence_alike (applied context) g r second) fun found _ _ others => ?_
          exact ensures_pure (List.rel_append alike others)
      | orElse alternatives =>
        refine ensures_bind (firstOf_alike (applied context g) alternatives s) fun _ _ _ alike => ?_
        exact ensures_pure alike
      | cond probe yes no =>
        refine ensures_read_bind ?_
        split
        · refine ensures_bind (applied context g s yes) fun found _ _ alike => ?_
          exact ensures_pure (List.rel_append alike (same no))
        · refine ensures_bind (applied context g s no) fun found _ _ alike => ?_
          exact ensures_pure (List.rel_append (same yes) alike)
      | iterate inner limit =>
        exact ensures_bind (iterated context limit g s inner) fun _ _ _ alike => ensures_pure alike
      | tryFor inner budget =>
        exact ensures_bind (applied _ g s inner) fun _ _ _ alike => ensures_pure alike
      | usingParams inner params =>
        refine ensures_bind (runWith_alike (applied context g) params s inner) fun _ _ _ alike => ?_
        exact ensures_pure alike
    · intro context limit g s t
      dsimp only
      unfold iterateTo
      refine ensures_read_bind ?_
      split
      · exact ensures_pure (.refl t)
      · split
        · exact ensures_pure (.refl t)
        · refine ensures_bind (applied context g s t) ?_
          rintro ⟨outcome, t'⟩ middle _ alike
          cases outcome with
          | error e => exact ensures_pure alike
          | ok r =>
            dsimp only
            split
            · exact ensures_pure alike
            · refine (sequence_alike (iterated context _) g r t').imp fun _ _ _ others => ?_
              exact alike.trans others

end Runs

section Saved

/-- A set gives what the last of some parts gives. -/
def Collects (p : Params) (parts : List Tactic) : Prop :=
  Named.Sorted p.entries ∧ ∀ name, p.get? name = parts.reverse.findSome? (·.params.get? name)

/-- Two sets that are merged give what the parts of both give. -/
theorem Collects.merge {q : Params} {parts others : List Tactic} (first : Collects p parts)
    (second : Collects q others) : Collects (p.merge q) (parts ++ others) := by
  refine ⟨first.1.insertAll _, fun name => ?_⟩
  rw [get?_merge second.1, first.2, second.2, List.reverse_append, List.findSome?_append]

/-- The parameters of a part. -/
theorem Collects.single (sorted : Named.Sorted t.params.entries) : Collects t.params [t] :=
  ⟨sorted, fun _ => by rw [List.reverse_singleton, List.findSome?_singleton]⟩

mutual

/-- The parameters of a tactic are those of its parts; the last part that has a parameter counts. -/
theorem collects_params : ∀ t : Tactic, Collects t.params t.parts
  | andThen first second => (collects_params first).merge (collects_params second)
  | orElse alternatives => collects_paramsOfAll alternatives
  | cond _ yes no => (collects_params yes).merge (collects_params no)
  | iterate inner _ | tryFor inner _ | usingParams inner _ => collects_params inner
  | simplify .. | solveEqs _ | splitClause _ | bitBlast _ => .single (sorted_ofList _)
  | skip | fail _ | failIfUndecided | failIf _ | custom .. => .single .nil

/-- The parameters of tactics are those of their parts. -/
theorem collects_paramsOfAll : ∀ alternatives : List Tactic,
    Collects (paramsOfAll alternatives) (partsOfAll alternatives)
  | [] => ⟨.nil, fun _ => rfl⟩
  | t :: rest => (collects_params t).merge (collects_paramsOfAll rest)

end

/-- The value of a parameter of a tactic is that of one of its parts. -/
theorem exists_part {name : String} {v : ParamValue} (found : t.params.get? name = some v) :
    ∃ u ∈ t.parts, u.params.get? name = some v := by
  rw [(collects_params t).2] at found
  obtain ⟨u, inside, found⟩ := List.exists_of_findSome?_eq_some found
  exact ⟨u, List.mem_reverse.mp inside, found⟩

/-- A tactic has suitable values of the parameters of its parts. -/
theorem params_covers (inside : u ∈ t.parts) : t.params.Covers u.params := by
  intro name v found
  have some : (t.params.get? name).isSome := by
    rw [(collects_params t).2, List.findSome?_isSome_iff]
    exact ⟨u, List.mem_reverse.mpr inside, Option.isSome_of_mem found⟩
  obtain ⟨saved, found⟩ := Option.isSome_iff_exists.mp some
  obtain ⟨w, member, there⟩ := exists_part found
  obtain ⟨value, given, suits⟩ := (sameKind_of_mem member).covers name saved there
  obtain rfl : saved = value := Option.some.inj (there.symm.trans given)
  exact ⟨saved, found, suits⟩

/-- No two parts have different values of a parameter. -/
def Consistent (t : Tactic) : Prop :=
  ∀ u ∈ t.parts, ∀ w ∈ t.parts, ∀ name a b, u.params.get? name = some a →
    w.params.get? name = some b → a = b

/-- A tactic has the values of each of its parts exactly if no two parts have different values of a
parameter. -/
theorem consistent_iff : t.Consistent ↔ ∀ u ∈ t.parts, t.params.Includes u.params := by
  constructor
  · intro consistent u inside name v found
    obtain ⟨saved, given, -⟩ := params_covers inside name v found
    obtain ⟨w, member, there⟩ := exists_part given
    rw [given, consistent u inside w member name v saved found there]
  · intro includes u inside w member name a b found there
    have first := includes u inside name a found
    have second := includes w member name b there
    exact Option.some.inj (first.symm.trans second)

/-- Parts that all accept the parameters are changed one by one. -/
theorem Changes.of_accepted {before after : List Tactic} {outcome : Except Error Unit}
    (changes : Changes p before outcome after) (each : ∀ u ∈ before, (u.update p).1 = .ok ()) :
    outcome = .ok () ∧ after = before.map fun u => (u.update p).2 := by
  induction changes with
  | none => exact ⟨rfl, rfl⟩
  | accepted changed _ later =>
    obtain ⟨done, rest⟩ := later fun u inside => each u (List.mem_cons_of_mem _ inside)
    refine ⟨done, ?_⟩
    rw [List.map_cons, changed, rest]
  | refused changed =>
    have here := each _ (List.mem_cons_self ..)
    rw [changed] at here
    cases here

/-- Parts that are related one by one have the same images. -/
theorem map_eq_of_sameKinds {α : Type} {f : Tactic → α} {parts others : List Tactic}
    (kinds : List.Forall₂ SameKind parts others)
    (same : ∀ u ∈ parts, ∀ w, SameKind u w → f w = f u) : others.map f = parts.map f := by
  induction kinds with
  | nil => rfl
  | cons kind _ later =>
    rw [List.map_cons, List.map_cons, same _ (List.mem_cons_self ..) _ kind,
      later fun u inside => same u (List.mem_cons_of_mem _ inside)]

/-- The saved parameters are accepted by a tactic of the same kinds of parts. Each part gets the
saved values, whatever its configuration is. -/
theorem update_saved (alike : Alike t u) : (u.update t.params).1 = .ok () ∧
    (u.update t.params).2.parts.map fresh =
      t.parts.map fun part => (part.update t.params).2.fresh := by
  have each (part : Tactic) (inside : part ∈ t.parts) :=
    (sameKind_of_mem inside).exists_given (params_covers inside)
  have accepted : ∀ w ∈ u.parts, (w.update t.params).1 = .ok () := by
    intro w inside
    obtain ⟨part, member, kind⟩ := exists_of_forall₂ (List.Forall₂.flip alike) inside
    obtain ⟨_, given, -⟩ := each part member
    exact (given w kind).1
  obtain ⟨done, changed⟩ := (changes_update t.params u).of_accepted accepted
  refine ⟨done, ?_⟩
  rw [changed, List.map_map]
  refine map_eq_of_sameKinds alike fun part inside w kind => ?_
  obtain ⟨_, given, -⟩ := each part inside
  exact (given w kind).2.trans (given part (sameKind_of_mem inside)).2.symm

/-- The saved parameters give every part its configuration exactly if no two parts have different
values of a parameter. -/
theorem update_saved_eq_iff :
    (t.parts.map fun part => (part.update t.params).2.fresh) = t.parts.map fresh ↔
      t.Consistent := by
  rw [List.map_inj_left, consistent_iff]
  refine forall₂_congr fun part inside => ?_
  obtain ⟨_, given, same⟩ := (sameKind_of_mem inside).exists_given (params_covers inside)
  rw [(given part (sameKind_of_mem inside)).2, same]

/-- A run with other parameters that are accepted ends with the saved ones. -/
theorem runWith_saved {params : Params} {run : Tactic → Run} (shaped : ∀ s, Shaped run s)
    (s : Store) (accepted : (t.update params).1 = .ok ()) :
    (runWith params run t).Ensures s fun found _ => found.2.parts.map fresh =
      t.parts.map fun part => (part.update t.params).2.fresh := by
  have changed := alike_update params t
  unfold runWith
  split
  · next refused =>
    rw [refused] at accepted
    cases accepted
  · next update =>
    rw [update] at changed
    refine ensures_bind (shaped s _) ?_
    rintro ⟨outcome, left⟩ after _ alike
    exact ensures_pure (update_saved (changed.trans alike)).2

/-- A run with other parameters that are refused fails. -/
theorem runWith_refused {params : Params} {run : Tactic → Run} {e : Error}
    (refused : (t.update params).1 = .error e) :
    runWith params run t = return (.error e, (t.update params).2) := by
  unfold runWith
  split
  · next update =>
    rw [update] at refused ⊢
    obtain rfl := Except.error.inj refused
    rfl
  · next update =>
    rw [update] at refused
    cases refused

end Saved

section Accepted

variable {params : Params}

/-- A description of a limit is that of a number, and a description of a choice that of a truth
value. -/
def Described (name : String) (d : ParamDescr) : Prop :=
  (d.kind = .uint ∧ name ∈ numbers) ∨ (d.kind = .bool ∧ name ∉ numbers)

/-- A table that describes limits and choices. -/
def Describes (table : ParamDescrs) : Prop := ∀ e ∈ table.entries, Described e.1 e.2

/-- Two tables that describe limits and choices. -/
theorem Describes.union {table other : ParamDescrs} (first : Describes table)
    (second : Describes other) : Describes (table.union other) := by
  intro e inside
  obtain inside | inside := Named.mem_insertAll inside
  · exact second e inside
  · exact first e inside

/-- A table of a list of descriptions of limits and choices. -/
theorem describes_ofList {entries : List (String × ParamValue × String)}
    (each : ∀ e ∈ entries, (e.2.1.kind = .uint ∧ normalize e.1 ∈ numbers) ∨
      (e.2.1.kind = .bool ∧ normalize e.1 ∉ numbers)) : Describes (.ofList entries) := by
  refine List.foldlRecOn (motive := Describes) entries _ (fun _ => nofun)
    fun table known entry inside e member => ?_
  obtain rfl | member := Named.mem_insert member
  · exact each entry inside
  · exact known e member

mutual

/-- The parameters that a tactic understands are limits and choices. -/
theorem describes_descrs : ∀ t : Tactic, Describes t.descrs
  | andThen first second => (describes_descrs first).union (describes_descrs second)
  | orElse alternatives => describes_descrsOfAll alternatives
  | cond _ yes no => (describes_descrs yes).union (describes_descrs no)
  | iterate inner _ | tryFor inner _ | usingParams inner _ => describes_descrs inner
  | simplify .. => describes_ofList (by decide)
  | solveEqs _ => describes_ofList (by decide)
  | splitClause _ => describes_ofList (by decide)
  | bitBlast _ => describes_ofList (by decide)
  | skip | fail _ | failIfUndecided | failIf _ | custom .. => fun _ => nofun

/-- The parameters that tactics understand are limits and choices. -/
theorem describes_descrsOfAll : ∀ alternatives : List Tactic, Describes (descrsOfAll alternatives)
  | [] => fun _ => nofun
  | t :: rest => (describes_descrs t).union (describes_descrsOfAll rest)

end

/-- Every value of a set that passes a check passes it. -/
theorem validateEntry_of_validate {table : ParamDescrs} (valid : table.validate params = .ok ()) :
    ∀ e ∈ params.entries, table.validateEntry e.1 e.2 = .ok () := by
  unfold ParamDescrs.validate at valid
  generalize params.entries = entries at valid ⊢
  induction entries with
  | nil => nofun
  | cons e rest later =>
    have valid : (do
        table.validateEntry e.1 e.2
        rest.forM fun e => table.validateEntry e.1 e.2) = .ok () := valid
    cases here : table.validateEntry e.1 e.2 with
    | error =>
      rw [here] at valid
      cases valid
    | ok =>
      rw [here] at valid
      exact List.forall_mem_cons.mpr ⟨here, later valid⟩

/-- A tactic accepts a set of parameters that it understands, if the largest degree has at most 32
bits. -/
theorem update_of_validate (valid : t.descrs.validate params = .ok ())
    (small : ∀ n, ("max-degree", .uint n) ∈ params.entries → n < 4294967296) :
    (t.update params).1 = .ok () := by
  cases outcome : (t.update params).1 with
  | ok => rfl
  | error e =>
    obtain ⟨name, v, inside, unsuited⟩ := (update_careful params t).refuses e outcome
    have accepted := validateEntry_of_validate valid _ inside
    unfold ParamDescrs.validateEntry at accepted
    split at accepted
    · cases accepted
    · next d found =>
      refine absurd ?_ unsuited
      split_ifs at accepted with kinds
      have known : v.kind = .uint ∧ name ∈ numbers ∨ v.kind = .bool ∧ name ∉ numbers := by
        have described := describes_descrs t _ (Named.mem_of_find? found)
        unfold Described at described
        rcases kinds with same | ⟨double, -⟩
        · rwa [← same]
        · rw [double] at described
          rcases described with ⟨kind, -⟩ | ⟨kind, -⟩ <;> cases kind
      rcases known with ⟨kind, number⟩ | ⟨kind, choice⟩ <;> cases v <;> cases kind
      · next n => exact ⟨number, fun same => small n (same ▸ inside)⟩
      · exact choice

end Accepted

/-- **Other parameters last for one run.** A tactic accepts an override that it understands, unless
its largest degree has more than 32 bits. Whatever an accepted override is run on and however the
run ends, every part then has the saved values of its parameters, so the configuration of all parts
is what it was before if and only if no two parts had different values of a parameter. A run whose
override is refused fails, and the tactic is left as far as its parts were changed. -/
theorem withParams_restores {params : Params} (accepted : t.withParams params = .ok u) :
    ((∀ n, ("max-degree", .uint n) ∈ params.entries → n < 4294967296) →
      (t.update params).1 = .ok ()) ∧
    ∀ context g s outcome left after, (u.apply context g).run s = ((outcome, left), after) →
      ((t.update params).1 = .ok () → ∃ t', left = usingParams t' params ∧
        (t'.parts.map fresh = t.parts.map fun part => (part.update t.params).2.fresh) ∧
        (t'.parts.map fresh = t.parts.map fresh ↔ t.Consistent)) ∧
      ∀ e, (t.update params).1 = .error e →
        outcome = .error e ∧ left = usingParams (t.update params).2 params := by
  obtain ⟨valid, rfl⟩ : t.descrs.validate params = .ok () ∧ u = usingParams t params := by
    unfold withParams at accepted
    cases valid : t.descrs.validate params with
    | error e =>
      rw [valid] at accepted
      cases accepted
    | ok =>
      rw [valid] at accepted
      exact ⟨rfl, (Except.ok.inj accepted).symm⟩
  refine ⟨update_of_validate valid, fun context g s outcome left after ran => ?_⟩
  obtain ⟨depth, bound⟩ : ∃ depth, depthLimit = depth + 1 := ⟨4294967295, rfl⟩
  rw [apply, bound] at ran
  constructor
  · intro accepted
    have ended : (applyTo context (depth + 1) (usingParams t params) g).Ensures s fun found _ =>
        ∃ t', found.2 = usingParams t' params ∧ (t'.parts.map fresh =
          t.parts.map fun part => (part.update t.params).2.fresh) := by
      rw [applyTo]
      refine ensures_bind (runWith_saved ((run_alike depth).1 context g) s accepted) ?_
      rintro ⟨outcome, t'⟩ after _ same
      exact ensures_pure ⟨t', rfl, same⟩
    unfold Terms.Ensures at ended
    rw [ran] at ended
    obtain ⟨t', rfl, same⟩ := ended
    refine ⟨t', rfl, same, ?_⟩
    rw [same, update_saved_eq_iff]
  · intro e refused
    rw [applyTo, runWith_refused refused] at ran
    obtain ⟨rfl, rfl⟩ := Prod.mk.inj (Prod.mk.inj ran).1
    exact ⟨rfl, rfl⟩

/-- The limit of an elimination of constants is what it was after a run with another one. Two
simplifiers of which one replaces conjunctions both replace them after a run with the parameters
they have. -/
theorem withParams_restores_case :
    let g : Goal := { models := true, proofs := false, cores := false }
    let limited := andThen (solveEqs {}) (splitClause false)
    let limit := Params.ofList [("solve-eqs-max-occs", .uint 7)]
    let mixed := cond (.const 1) (simplifyWith {}) elimAnd
    (limited.withParams limit = .ok (usingParams limited limit) ∧
      (limited.update limit).2.parts.map fresh ≠ limited.parts.map fresh ∧
      ∃ t', (((usingParams limited limit).apply .unbounded g).run .initial).1.2 =
        usingParams t' limit ∧ t'.parts.map fresh = limited.parts.map fresh) ∧
    mixed.withParams {} = .ok (usingParams mixed {}) ∧
      ∃ t', (((usingParams mixed {}).apply .unbounded g).run .initial).1.2 = usingParams t' {} ∧
        t'.parts.map fresh ≠ mixed.parts.map fresh := by
  intro g limited limit mixed
  have valid : limited.withParams limit = .ok (usingParams limited limit) := by rfl
  have valid' : mixed.withParams {} = .ok (usingParams mixed {}) := by rfl
  obtain ⟨accepts, runs⟩ := withParams_restores valid
  obtain ⟨accepts', runs'⟩ := withParams_restores valid'
  have small : ∀ n, ("max-degree", ParamValue.uint n) ∈ limit.entries → n < 4294967296 := by
    intro n inside
    have same : "max-degree" = normalize "solve-eqs-max-occs" :=
      (Prod.mk.inj (List.mem_singleton.mp inside)).1
    exact absurd same (by decide)
  refine ⟨⟨valid, fun same => ?_, ?_⟩, valid', ?_⟩
  · have limits : 7 = 18446744073709551615 := congrArg EquationConfig.maxOccs
      (congrArg EquationSolver.config (solveEqs.inj (List.cons.inj same).1))
    exact absurd limits (by decide)
  · obtain ⟨t', left, -, kept⟩ := (runs .unbounded g .initial _ _ _ rfl).1 (accepts small)
    exact ⟨t', left, kept.mpr (update_saved_eq_iff.mp rfl)⟩
  · obtain ⟨t', left, -, kept⟩ := (runs' .unbounded g .initial _ _ _ rfl).1 (accepts' fun _ => nofun)
    refine ⟨t', left, fun same => ?_⟩
    have plain : (simplifyWith {}).params.get? "elim-and" = some (.bool false) :=
      get?_ofList SimplifierConfig.distinct (by simp)
    have replacing : elimAnd.params.get? "elim-and" = some (.bool true) :=
      get?_ofList SimplifierConfig.distinct (by simp)
    have agree := kept.mp same (simplifyWith {}) (by simp [mixed, parts, simplifyWith])
      elimAnd (by simp [mixed, parts, elimAnd]) "elim-and" _ _ plain replacing
    cases agree

end Stratagem.Tactic
